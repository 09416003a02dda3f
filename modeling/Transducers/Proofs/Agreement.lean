import Mathlib.Data.List.Perm.Subperm
import Transducers.Definition.Printer
import Transducers.Proofs.RoundTrip

/-!
# What a conversion looks at

A conversion looks up the declared states and symbols only.  Machines that agree there
are converted to the same machine, with all its orders, or fail alike, and report the
same on the way: rows of other states and the order inside maps do not matter.

* `Mealy.AgreesWith`, `Moore.AgreesWith`: agreement in all that a conversion looks at;
* `enter_congr`, `begin_congr`, `complete_congr`, `wire_congr`: each phase does the same;
* `rel_of_agrees`, `cell?_of_agrees`: maps that are equal up to order have equal lookups;
* `convert_congr`: machines that agree are converted alike, and so are equal machines.
-/

namespace Transducers

/-! ## Maps that differ in order only -/

namespace OrderedMap

variable {κ α : Type} [DecidableEq κ]

theorem mem_entries_of_agrees {related : α → α → Bool} {m n : OrderedMap κ α}
    (h : m.agrees related n = true) {k : κ} {v : α} (hv : m.get? k = some v) :
    ∃ w, n.get? k = some w ∧ related v w = true := by
  unfold agrees at h
  rw [Bool.and_eq_true, List.all_eq_true] at h
  have hk := h.2 (k, v) (mem_entries_iff.mpr hv)
  cases hw : n.get? k with
  | none => simp [hw] at hk
  | some w => exact ⟨w, rfl, by simpa [hw] using hk⟩

/-- The maps have the same keys, as neither has more of them. -/
theorem mem_keys_of_agrees {related : α → α → Bool} {m n : OrderedMap κ α}
    (h : m.agrees related n = true) {k : κ} : k ∈ n.keys ↔ k ∈ m.keys := by
  have hsub : m.keys ⊆ n.keys := by
    intro k hk
    obtain ⟨v, hv⟩ := mem_keys_iff_exists.mp hk
    obtain ⟨w, hw, -⟩ := mem_entries_of_agrees h hv
    exact mem_keys_iff_exists.mpr ⟨w, hw⟩
  have hsize : m.size = n.size := by
    unfold agrees at h
    rw [Bool.and_eq_true, beq_iff_eq] at h
    exact h.1
  have hlength : n.keys.length ≤ m.keys.length := by
    simp only [keys, List.length_map]
    exact Nat.le_of_eq hsize.symm
  have hperm := (List.subperm_of_subset m.keys_nodup hsub).perm_of_length_le hlength
  exact hperm.mem_iff.symm

/-- A lookup finds related values in both maps, or nothing in either. -/
theorem rel_of_agrees {related : α → α → Bool} {m n : OrderedMap κ α}
    (h : m.agrees related n = true) (k : κ) :
    Option.Rel (fun v w => related v w = true) (m.get? k) (n.get? k) := by
  cases hv : m.get? k with
  | some v =>
    obtain ⟨w, hw, hr⟩ := mem_entries_of_agrees h hv
    rw [hw]
    exact .some hr
  | none =>
    have hn : n.get? k = none := by
      rw [get?_eq_none_iff, mem_keys_of_agrees h, ← get?_eq_none_iff]
      exact hv
    rw [hn]
    exact .none

theorem get?_of_agrees [DecidableEq α] {m n : OrderedMap κ α} (h : m.agrees (· == ·) n = true)
    (k : κ) : m.get? k = n.get? k := by
  have hrel := rel_of_agrees h k
  generalize m.get? k = v at hrel ⊢
  generalize n.get? k = w at hrel ⊢
  cases hrel with
  | none => rfl
  | some hr => rw [beq_iff_eq.mp hr]

end OrderedMap

theorem Table.cell?_of_agrees {α : Type} [DecidableEq α] {t u : Table α}
    (h : t.agrees (OrderedMap.agrees (· == ·)) u = true) (s x : String) :
    t.cell? s x = u.cell? s x := by
  have hrel := OrderedMap.rel_of_agrees h s
  unfold Table.cell?
  generalize t.get? s = row at hrel ⊢
  generalize u.get? s = row' at hrel ⊢
  cases hrel with
  | none => rfl
  | some hrow => exact OrderedMap.get?_of_agrees hrow x

/-! ## From Mealy to Moore -/

/-- The machines agree in all that the conversion of a Mealy machine looks at. -/
structure Mealy.AgreesWith (m n : Mealy) : Prop where
  states : m.states = n.states
  inputSymbols : m.inputSymbols = n.inputSymbols
  initialState : m.initialState = n.initialState
  initialOutput : m.initialOutput = n.initialOutput
  transition : ∀ s ∈ m.states, ∀ x ∈ m.inputSymbols, m.transition s x = n.transition s x
  stateOutputs : ∀ s, s ∈ m.states ∨ s = m.initialState →
    m.stateOutputs.get? s = n.stateOutputs.get? s

namespace Synthesis

variable {m n : Mealy}

theorem enter_congr {ps : List (String × String)}
    (h : ∀ p ∈ ps, m.transition p.1 p.2 = n.transition p.1 p.2) (k : Synthesis) :
    enter m k ps = enter n k ps := by
  induction ps generalizing k with
  | nil => rfl
  | cons p ps ih =>
    obtain ⟨s, x⟩ := p
    rw [List.forall_mem_cons] at h
    rw [enter, enter, h.1]
    cases n.transition s x with
    | error e => rfl
    | ok t => exact ih h.2 (k.intern t.next t.output)

theorem complete_congr {states : List String} (h : ∀ s ∈ states, m.outputHint s = n.outputHint s)
    (k : Synthesis) : complete m k states = complete n k states := by
  induction states generalizing k with
  | nil => rfl
  | cons s states ih =>
    rw [List.forall_mem_cons] at h
    rw [complete, complete, h.1]
    split
    · exact ih h.2 k
    · cases n.outputHint s with
      | none => rfl
      | some output => exact ih h.2 ((k.report (.neverEntered s output)).intern s output)

variable (h : m.AgreesWith n)
include h

theorem transition_congr {p : String × String} (hp : p ∈ m.declaredPairs) :
    m.transition p.1 p.2 = n.transition p.1 p.2 := by
  obtain ⟨hs, hx⟩ := Mealy.mem_declaredPairs.mp hp
  exact h.transition p.1 hs p.2 hx

theorem declaredPairs_congr : m.declaredPairs = n.declaredPairs := by
  rw [Mealy.declaredPairs, Mealy.declaredPairs, h.states, h.inputSymbols]

theorem begin_congr (k : Synthesis) : begin m k = begin n k := by
  have hinitial := h.stateOutputs m.initialState (Or.inr rfl)
  unfold begin
  simp only [← h.initialState, ← h.initialOutput, hinitial]

theorem outputHint_congr {s : String} (hs : s ∈ m.states) : m.outputHint s = n.outputHint s := by
  unfold Mealy.outputHint
  rw [h.initialState, h.initialOutput, h.stateOutputs s (Or.inl hs)]

/-- Wiring goes through the declared states and symbols, not through the table. -/
theorem wire_congr (k : Synthesis) : wire m k = wire n k := by
  have hcells : wiredCells m k = wiredCells n k := by
    unfold wiredCells
    rw [← declaredPairs_congr h]
    refine List.flatMap_congr fun p hp => ?_
    rw [transition_congr h hp]
  rw [wire_eq_writeAll, wire_eq_writeAll, hcells]

theorem ofMealy_congr : ofMealy m = ofMealy n := by
  have henter : enter m empty m.declaredPairs = enter n empty n.declaredPairs := by
    rw [enter_congr (fun p hp => transition_congr h hp), declaredPairs_congr h]
  have hbegin : begin m = begin n := funext (begin_congr h)
  have hcomplete (k : Synthesis) : complete m k m.states = complete n k n.states := by
    rw [complete_congr (fun s hs => outputHint_congr h hs), h.states]
  unfold ofMealy
  simp only [henter, hbegin, hcomplete]

theorem toMoore_congr : m.toMoore = n.toMoore := by
  unfold Mealy.toMoore
  rw [ofMealy_congr h]
  cases ofMealy n with
  | error stop => rfl
  | ok r => simp only [toMoore, h.inputSymbols, wire_congr h]

theorem conversionEvents_congr : m.conversionEvents = n.conversionEvents := by
  unfold Mealy.conversionEvents
  rw [ofMealy_congr h]

end Synthesis

/-! ## From Moore to Mealy -/

namespace Moore

/-- The machines agree in all that the conversion of a Moore machine looks at. -/
structure AgreesWith (m n : Moore) : Prop where
  states : m.states = n.states
  inputSymbols : m.inputSymbols = n.inputSymbols
  initialState : m.initialState = n.initialState
  transition : ∀ s ∈ m.states, ∀ x ∈ m.inputSymbols, m.transition s x = n.transition s x
  /-- Of the states that are declared, initial or the destination of a declared transition. -/
  outputs : ∀ s, m.Occurs s → m.outputs.get? s = n.outputs.get? s

variable {m n : Moore} (h : m.AgreesWith n)
include h

theorem transitionTo_congr {s x : String} (hs : s ∈ m.states) (hx : x ∈ m.inputSymbols) :
    m.transitionTo s x = n.transitionTo s x := by
  unfold transitionTo
  rw [← h.transition s hs x hx]
  cases hn : m.transition s x with
  | error e => rfl
  | ok next =>
    have hocc : m.Occurs next := Or.inr (Or.inr ⟨s, hs, x, hx, hn⟩)
    have ho : m.output next = n.output next := by
      rw [Moore.output, Moore.output, h.outputs next hocc]
    simp only [bind, Except.bind, ho]

theorem mealyRow_congr {s : String} (hs : s ∈ m.states) {symbols : List String}
    (hx : ∀ x ∈ symbols, x ∈ m.inputSymbols) : m.mealyRow s symbols = n.mealyRow s symbols := by
  induction symbols with
  | nil => rfl
  | cons x symbols ih =>
    rw [List.forall_mem_cons] at hx
    rw [mealyRow, mealyRow, transitionTo_congr h hs hx.1, ih hx.2]

theorem mealyRows_congr {states : List String} (hs : ∀ s ∈ states, s ∈ m.states) :
    m.mealyRows states = n.mealyRows states := by
  induction states with
  | nil => rfl
  | cons s states ih =>
    rw [List.forall_mem_cons] at hs
    rw [mealyRows, mealyRows, mealyRow_congr h hs.1 (fun x hx => hx), h.inputSymbols, ih hs.2]

theorem entered_congr : m.entered = n.entered := by
  have hpairs : m.declaredPairs = n.declaredPairs := by
    rw [declaredPairs, declaredPairs, h.states, h.inputSymbols]
  unfold entered
  rw [← hpairs]
  refine List.filterMap_congr fun p hp => ?_
  obtain ⟨hs, hx⟩ := mem_declaredPairs.mp hp
  refine Option.ext fun next => ?_
  rw [← transition_eq_ok_iff, ← transition_eq_ok_iff, h.transition p.1 hs p.2 hx]

theorem asideOutputs_congr : m.asideOutputs = n.asideOutputs := by
  unfold asideOutputs
  rw [← entered_congr h, ← h.states, ← h.initialState]
  refine List.filterMap_congr fun s hs => ?_
  rw [h.outputs s (Or.inl (List.mem_of_mem_filter hs))]

theorem toMealy_congr : m.toMealy = n.toMealy := by
  have hrows : m.mealyRows m.states = n.mealyRows n.states := by
    rw [mealyRows_congr h (fun s hs => hs), h.states]
  unfold toMealy
  rw [hrows, h.states, h.inputSymbols, h.initialState, asideOutputs_congr h,
    ← h.outputs n.initialState (Or.inr (Or.inl h.initialState.symm))]

end Moore

/-! ## Equal machines -/

theorem Mealy.agreesWith_of_same {m n : Mealy} (h : m.same n = true) : m.AgreesWith n := by
  simp only [Mealy.same, Bool.and_eq_true, beq_iff_eq] at h
  obtain ⟨⟨⟨⟨⟨hstates, hsymbols⟩, htransitions⟩, hinitial⟩, houtput⟩, houtputs⟩ := h
  refine ⟨hstates, hsymbols, hinitial, houtput, fun s _ x _ => ?_, fun s _ => ?_⟩
  · rw [Mealy.transition, Mealy.transition, Table.cell?_of_agrees htransitions]
  · exact OrderedMap.get?_of_agrees houtputs s

theorem Moore.agreesWith_of_same {m n : Moore} (h : m.same n = true) : m.AgreesWith n := by
  simp only [Moore.same, Bool.and_eq_true, beq_iff_eq] at h
  obtain ⟨⟨⟨⟨hstates, hsymbols⟩, htransitions⟩, houtputs⟩, hinitial⟩ := h
  refine ⟨hstates, hsymbols, hinitial, fun s _ x _ => ?_, fun s _ => ?_⟩
  · rw [Moore.transition, Moore.transition, Table.cell?_of_agrees htransitions]
  · exact OrderedMap.get?_of_agrees houtputs s

namespace Machine

/-- The machines are of one kind, and agree in all that their conversion looks at. -/
inductive AgreesWith : Machine → Machine → Prop
  | mealy {m n : Mealy} (h : m.AgreesWith n) : AgreesWith (.mealy m) (.mealy n)
  | moore {m n : Moore} (h : m.AgreesWith n) : AgreesWith (.moore m) (.moore n)

theorem agreesWith_of_same {m n : Machine} (h : m.same n = true) : m.AgreesWith n := by
  cases m with
  | mealy m =>
    cases n with
    | mealy n => exact .mealy (Mealy.agreesWith_of_same h)
    | moore n => cases h
  | moore m =>
    cases n with
    | mealy n => cases h
    | moore n => exact .moore (Moore.agreesWith_of_same h)

theorem AgreesWith.convert_eq {m n : Machine} (h : m.AgreesWith n) : m.convert = n.convert := by
  cases h with
  | mealy h => rw [convert, convert, Synthesis.toMoore_congr h]
  | moore h => rw [convert, convert, Moore.toMealy_congr h]

theorem AgreesWith.conversionEvents_eq {m n : Machine} (h : m.AgreesWith n) :
    m.conversionEvents = n.conversionEvents := by
  cases h with
  | mealy h => exact Synthesis.conversionEvents_congr h
  | moore h => rfl

/-- **Conversions look at the declared part only.**  Machines of one kind that agree there
are converted to one machine, orders included, or fail with one error, and report the same.
So do machines that are equal up to the order inside maps, whose results then have one
text. -/
theorem convert_congr :
    (∀ m n : Mealy, m.AgreesWith n →
      m.toMoore = n.toMoore ∧ m.conversionEvents = n.conversionEvents) ∧
    (∀ m n : Moore, m.AgreesWith n →
      m.toMealy = n.toMealy ∧ (moore m).conversionEvents = (moore n).conversionEvents) ∧
    ∀ m n : Machine, m.same n = true →
      m.convert = n.convert ∧ m.conversionEvents = n.conversionEvents ∧
      m.convert.map Machine.definition = n.convert.map Machine.definition := by
  refine ⟨fun m n h => ?_, fun m n h => ?_, fun m n h => ?_⟩
  · exact ⟨Synthesis.toMoore_congr h, Synthesis.conversionEvents_congr h⟩
  · exact ⟨Moore.toMealy_congr h, (AgreesWith.moore h).conversionEvents_eq⟩
  · have hagree := agreesWith_of_same h
    exact ⟨hagree.convert_eq, hagree.conversionEvents_eq, by rw [hagree.convert_eq]⟩

/-- Two states that lead to each other. -/
def paired : Mealy :=
  ((Mealy.new "A").withTransition "A" "0" "B" "y").withTransition "B" "0" "A" "x"

/-- The same transitions, written in another order. -/
def reordered : Mealy :=
  { paired with
    transitions := (Table.write .empty "B" "0" ⟨"A", "x"⟩).write "A" "0" ⟨"B", "y"⟩ }

/-- A row of a state and a cell for a symbol that are not declared, and an output for the
state, all before the declared transitions. -/
def strayed : Mealy :=
  { paired with
    transitions := (((Table.write .empty "U" "0" ⟨"A", "z"⟩).write "B" "7" ⟨"U", "q"⟩).write
      "B" "0" ⟨"A", "x"⟩).write "A" "0" ⟨"B", "y"⟩
    stateOutputs := OrderedMap.empty.insert "U" "u" }

theorem paired_agreesWith_strayed : paired.AgreesWith strayed where
  states := rfl
  inputSymbols := rfl
  initialState := rfl
  initialOutput := rfl
  transition := by decide
  stateOutputs := by
    have hnone (s : String) (hs : s ≠ "U") : strayed.stateOutputs.get? s = none := by
      simp [strayed, OrderedMap.get?_insert, hs.symm]
    have hdeclared : ∀ s ∈ paired.states, s ≠ "U" := by decide
    rintro s (hs | rfl)
    · exact (hnone s (hdeclared s hs)).symm
    · exact (hnone _ (by decide)).symm

/-- One state that leads to itself. -/
def looping : Moore := ((Moore.new "A").withOutput "A" "x").withTransition "A" "0" "A"

/-- A row of a state that is not declared, and an output for it, before the others. -/
def loopingStrayed : Moore :=
  { looping with
    transitions := (Table.write .empty "U" "1" "A").write "A" "0" "A"
    outputs := (OrderedMap.empty.insert "U" "u").insert "A" "x" }

theorem looping_agreesWith_strayed : looping.AgreesWith loopingStrayed where
  states := rfl
  inputSymbols := rfl
  initialState := rfl
  transition := by decide
  outputs := by
    have hdeclared : ∀ s ∈ looping.states, s = "A" := by decide
    have hentered : ∀ s ∈ looping.entered, s = "A" := by decide
    intro s hs
    have hA : s = "A" := by
      rcases Moore.occurs_iff.mp hs with hs | rfl | hs
      · exact hdeclared s hs
      · rfl
      · exact hentered s hs
    rw [hA]
    decide

theorem convert_congr_strayed :
    paired.AgreesWith strayed ∧ paired.toMoore = strayed.toMoore ∧
      looping.AgreesWith loopingStrayed ∧ looping.toMealy = loopingStrayed.toMealy ∧
      (mealy paired).same (mealy reordered) = true ∧ paired ≠ reordered ∧
      (mealy paired).convert.map Machine.definition =
        (mealy reordered).convert.map Machine.definition := by
  have hsame : (mealy paired).same (mealy reordered) = true := by decide
  exact ⟨paired_agreesWith_strayed, (convert_congr.1 _ _ paired_agreesWith_strayed).1,
    looping_agreesWith_strayed, (convert_congr.2.1 _ _ looping_agreesWith_strayed).1, hsame,
    by decide, (convert_congr.2.2 _ _ hsame).2.2⟩

end Machine

end Transducers
