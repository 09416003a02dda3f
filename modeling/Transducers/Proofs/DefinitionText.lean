import Transducers.Definition.Reader
import Transducers.Proofs.JsonText

/-!
# Definitions are read back

The reader of definitions gives back every machine that the printer writes, with all
its names and the order of all its lists and maps.

* `asTexts_textsJson`, `asMap_mapJson`, `tableOfJson_tableJson`: the parts of a machine;
* `Mealy.draft`, `Moore.draft`: what is known when all members have been looked at;
* `ofMembers_members`: the members of a machine make the machine;
* `readMachine_json`: the text of a machine is read as the machine;
* `readDefinition_definition`: so is a definition, and what any source defines.
-/

namespace Transducers

open Json

/-! ## Parts of a machine -/

theorem asTexts_textsJson (names : List String) : (textsJson names).asTexts = .ok names := by
  rw [textsJson, Value.asTexts, List.mapM_map]
  induction names with
  | nil => rfl
  | cons name names ih => rw [List.mapM_cons, ih]; rfl

section Maps

variable {α : Type} {print : α → Value} {item : Value → Except Mismatch α}
  (h : ∀ x, item (print x) = .ok x)
include h

theorem readMembers_map (es : List (String × α)) :
    Value.readMembers item (es.map fun e => (e.1, print e.2)) = .ok es := by
  induction es with
  | nil => rfl
  | cons e es ih =>
    rw [List.map_cons, Value.readMembers, h, ih]
    rfl

theorem asMap_mapJson (m : OrderedMap String α) : Value.asMap item (mapJson print m) = .ok m := by
  rw [mapJson, Value.asMap, readMembers_map h, Except.map, OrderedMap.ofList_entries]

theorem tableOfJson_tableJson (t : Table α) : tableOfJson item (tableJson print t) = .ok t :=
  asMap_mapJson (asMap_mapJson h) t

end Maps

theorem Transition.ofJson_json (t : Transition) : Transition.ofJson t.json = .ok t := by
  simp [Transition.json, Transition.ofJson]

theorem asText_text (s : String) : (Value.text s).asText = .ok s := rfl

/-! ## Members -/

/-- What is known when the members of a machine have been looked at. -/
def Mealy.draft (m : Mealy) : MealyDraft where
  states := some m.states
  inputSymbols := some m.inputSymbols
  transitions := some m.transitions
  initialState := some m.initialState
  initialOutput := m.initialOutput.map some
  stateOutputs := if m.stateOutputs.isEmpty then none else some m.stateOutputs

def Moore.draft (m : Moore) : MooreDraft where
  states := some m.states
  inputSymbols := some m.inputSymbols
  transitions := some m.transitions
  outputs := some m.outputs
  initialState := some m.initialState

theorem Mealy.foldlM_members (m : Mealy) :
    m.members.foldlM (fun d e => d.put e.1 e.2) ({} : MealyDraft) = .ok m.draft := by
  have htable := tableOfJson_tableJson Transition.ofJson_json m.transitions
  have houtputs := asMap_mapJson asText_text m.stateOutputs
  cases hi : m.initialOutput <;> cases ho : m.stateOutputs.isEmpty <;>
    simp [Mealy.members, Mealy.draft, hi, ho, MealyDraft.put, once, asTexts_textsJson, htable,
      houtputs, Except.map, bind, Except.bind, pure, Except.pure, Value.asText,
      Value.asOptionalText]

theorem Mealy.finish_draft (m : Mealy) : m.draft.finish = .ok m := by
  have houtputs : (if m.stateOutputs.isEmpty then none else some m.stateOutputs).getD .empty =
      m.stateOutputs := by
    split
    · rename_i h
      exact (OrderedMap.eq_empty_of_isEmpty h).symm
    · rfl
  have hinitial : (m.initialOutput.map some).getD none = m.initialOutput := by
    cases m.initialOutput <;> rfl
  simp only [MealyDraft.finish, Mealy.draft, require, houtputs, hinitial]
  rfl

theorem Moore.foldlM_members (m : Moore) :
    m.members.foldlM (fun d e => d.put e.1 e.2) ({} : MooreDraft) = .ok m.draft := by
  have htable := tableOfJson_tableJson asText_text m.transitions
  have houtputs := asMap_mapJson asText_text m.outputs
  simp [Moore.members, Moore.draft, MooreDraft.put, MooreDraft.canonicalName, once,
    asTexts_textsJson, htable, houtputs, Except.map, bind, Except.bind, pure, Except.pure,
    Value.asText]

/-- **The members of a machine make the machine.** -/
theorem Machine.ofMembers_members (m : Machine) : Machine.ofMembers m.kind m.members = .ok m := by
  cases m with
  | mealy m =>
    simp only [Machine.kind, Machine.members, Machine.ofMembers, m.foldlM_members, bind,
      Except.bind, m.finish_draft]
    rfl
  | moore m =>
    simp only [Machine.kind, Machine.members, Machine.ofMembers, m.foldlM_members, bind,
      Except.bind]
    rfl

/-! ## Texts -/

theorem fits_textsJson (room : Nat) (names : List String) :
    (textsJson names).Fits (room + 1) := by
  refine .list fun v hv => ?_
  obtain ⟨name, -, rfl⟩ := List.mem_map.mp hv
  exact .text name

theorem fits_mapJson {α : Type} {print : α → Value} {room : Nat} (h : ∀ x, (print x).Fits room)
    (m : OrderedMap String α) : (mapJson print m).Fits (room + 1) := by
  refine .object fun e he => ?_
  obtain ⟨x, -, rfl⟩ := List.mem_map.mp he
  exact h x.2

theorem fits_transition (room : Nat) (t : Transition) : t.json.Fits (room + 1) := by
  refine .object fun e he => ?_
  simp only [List.mem_cons, List.not_mem_nil, or_false] at he
  rcases he with rfl | rfl
  · exact .text t.next
  · exact .text t.output

/-- No member of a machine is called `kind`, and none is nested more than three deep. -/
theorem fits_members (room : Nat) (m : Machine) :
    ∀ e ∈ m.members, e.1 ≠ "kind" ∧ e.2.Fits (room + 3) := by
  have htexts (names : List String) : (textsJson names).Fits (room + 3) :=
    fits_textsJson (room + 2) names
  have hmap (outputs : OrderedMap String String) : (mapJson .text outputs).Fits (room + 3) :=
    fits_mapJson .text outputs
  cases m with
  | mealy m =>
    have htable : (tableJson Transition.json m.transitions).Fits (room + 3) :=
      fits_mapJson (fits_mapJson (fits_transition room)) m.transitions
    simp only [Machine.members, Mealy.members, List.forall_mem_append, List.forall_mem_cons]
    refine ⟨⟨⟨⟨by decide, htexts _⟩, ⟨by decide, htexts _⟩, ⟨by decide, htable⟩,
      ⟨by decide, .text _⟩, by simp⟩, ?_⟩, ?_⟩
    · intro e he
      rw [Option.mem_toList, Option.map_eq_some_iff] at he
      obtain ⟨output, -, rfl⟩ := he
      exact ⟨(by decide : "initial_output" ≠ "kind"), .text output⟩
    · split
      · simp
      · exact List.forall_mem_singleton.mpr ⟨(by decide : "state_outputs" ≠ "kind"), hmap _⟩
  | moore m =>
    have htable : (tableJson .text m.transitions).Fits (room + 3) :=
      fits_mapJson (fits_mapJson fun s => .text s) m.transitions
    simp only [Machine.members, Moore.members, List.forall_mem_cons]
    exact ⟨⟨by decide, htexts _⟩, ⟨by decide, htexts _⟩, ⟨by decide, htable⟩,
      ⟨by decide, hmap _⟩, ⟨by decide, .text _⟩, by simp⟩

theorem reads_readKind (kind : MachineKind) : Reads readKind (.text kind.name) kind := by
  rintro _ ⟨⟩ gap hgap rest
  obtain ⟨hlt, hhead⟩ := readHead_text hgap kind.name rest
  refine ⟨hlt, ?_⟩
  simp only [readKind, hhead, bind, Except.bind, MachineKind.ofName?_name]
  rfl

/-- Members that are not the kind are kept as they are, the last one first. -/
theorem passes_kept {es : List (String × Value)}
    (h : ∀ e ∈ es, e.1 ≠ "kind" ∧ e.2.Fits (maxDepth - 1)) (known : TaggedMembers) :
    Passes TaggedMembers.member known es
      { known with reversed := es.reverse ++ known.reversed } := by
  induction es generalizing known with
  | nil => exact .nil
  | cons e es ih =>
    rw [List.forall_mem_cons] at h
    obtain ⟨⟨hname, hfits⟩, hes⟩ := h
    rw [List.reverse_cons, List.append_assoc]
    refine .cons (by rw [TaggedMembers.member, if_neg hname]) (fun s hs gap hgap rest => ?_)
      (ih hes { known with reversed := e :: known.reversed })
    obtain ⟨hlt, hvalue⟩ := reads_readValue hfits s hs gap hgap rest
    refine ⟨hlt, ?_⟩
    simp only [hvalue, bind, Except.bind]
    rfl

theorem passes_members (m : Machine) : Passes TaggedMembers.member ⟨none, []⟩
    (("kind", .text m.kind.name) :: m.members) ⟨some m.kind, m.members.reverse⟩ := by
  have hkept := passes_kept (fits_members 123 m) ⟨some m.kind, []⟩
  rw [List.append_nil] at hkept
  refine .cons rfl (fun s hs gap hgap rest => ?_) hkept
  obtain ⟨hlt, hkind⟩ := reads_readKind m.kind s hs gap hgap rest
  refine ⟨hlt, ?_⟩
  simp only [hkind, bind, Except.bind]
  rfl

/-- A machine is read from every text that spells its value. -/
theorem reads_readMachine (m : Machine) : Reads readMachine m.json m := by
  have hmachine : TaggedMembers.machine ⟨some m.kind, m.members.reverse⟩ = .ok m := by
    simp only [TaggedMembers.machine, require, bind, Except.bind, List.reverse_reverse,
      Machine.ofMembers_members]
  have hok : (TaggedMembers.machine ⟨some m.kind, m.members.reverse⟩).mapError Fault.mismatch =
      .ok m := by
    rw [hmachine]
    rfl
  intro s hs gap hgap rest
  cases hs with
  | @object gaps _ spell hspell =>
    obtain ⟨h₁, hfold⟩ := (passes_members m).foldMembers gaps hspell rest
    obtain ⟨h₂, hhead⟩ := readHead_object hgap (gaps.between
      ((("kind", .text m.kind.name) :: m.members).map (gaps.member spell)) ++ '\x7d' :: rest)
    rw [List.cons_append, List.append_assoc, List.singleton_append]
    refine ⟨length_lt_trans h₂ h₁, ?_⟩
    simp only [readMachine, hhead, hfold, bind, Except.bind, hok]
    rfl

theorem Machine.fits_json (m : Machine) : m.json.Fits 127 := by
  refine .object (List.forall_mem_cons.mpr ⟨.text m.kind.name, fun e he => ?_⟩)
  exact (fits_members 123 m e he).2

/-- **The text of a machine.** -/
theorem readMachine_json (m : Machine) (rest : List Char) :
    Takes readMachine (m.json.compactChars ++ rest) m rest :=
  (reads_readMachine m).takes (spelled_compactChars m.fits_json) rest

theorem Machine.read_definition (m : Machine) : readDefinition m.definition = .ok m := by
  refine readAll_of_takes ?_
  have hread := readMachine_json m []
  rw [List.append_nil] at hread
  rwa [Machine.definition, Value.compact, String.toList_ofList]

/-- **Definitions are read back.**  The definition of a machine defines that machine, with
all its names and the order of its lists and maps.  So a machine that any source defines
can be written and read again, and is written in the same way. -/
theorem readDefinition_definition :
    (∀ m : Machine, readDefinition m.definition = .ok m) ∧
    ∀ source m, readDefinition source = .ok m →
      readDefinition m.definition = .ok m ∧
      ∀ m', readDefinition m.definition = .ok m' → m'.definition = m.definition := by
  refine ⟨Machine.read_definition, fun source m _ => ⟨m.read_definition, fun m' h => ?_⟩⟩
  rw [m.read_definition, Except.ok.injEq] at h
  rw [h]

/-- A definition that lists its parts, with a transition as a pair, and names that must be
escaped. -/
def listedSource : String :=
  "[\"mealy\", [], [\"\"], \x7b\"\": \x7b\"\": [\"\\\"\", \"\\\\\"]\x7d\x7d, \"\\u0000\"]"

def listedMachine : Mealy where
  states := []
  inputSymbols := [""]
  transitions := Table.write .empty "" "" ⟨"\"", "\\"⟩
  initialState := "\x00"
  initialOutput := none
  stateOutputs := .empty

theorem readDefinition_listedSource : readDefinition listedSource = .ok (.mealy listedMachine) ∧
    readDefinition (Machine.mealy listedMachine).definition = .ok (.mealy listedMachine) ∧
    ∀ m', readDefinition (Machine.mealy listedMachine).definition = .ok m' →
      m'.definition = (Machine.mealy listedMachine).definition := by
  have hsource : readDefinition listedSource = .ok (.mealy listedMachine) := by
    have hsome : (readDefinition listedSource).toOption = some (.mealy listedMachine) := by
      decide +kernel
    cases hread : readDefinition listedSource with
    | error fault =>
      rw [hread] at hsome
      cases hsome
    | ok m =>
      rw [hread] at hsome
      exact congrArg Except.ok (Option.some.inj hsome)
  exact ⟨hsource, readDefinition_definition.2 listedSource _ hsource⟩

end Transducers
