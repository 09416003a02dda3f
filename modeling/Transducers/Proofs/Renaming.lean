import Mathlib.Logic.Embedding.Basic
import Transducers.Proofs.MooreForm

/-!
# Names carry no structure

A Mealy machine under other names is converted to the same Moore machine under other
names.  The ids of the two may look quite different, since one text can be the name of two
pairs in one machine and not in the other; but they stand at the same places, for pairs
that correspond.

* `Renaming`: other names for states, symbols and outputs, different for different names;
* `Mealy.rename`: the machine under other names, all its orders kept;
* `splitPairs_rename`, `obstacle?_rename`: the pairs that need a Moore state, and what
  stands in the way;
* `facing_iff_makes`: ids at one place of the two results belong to corresponding pairs;
* `toMoore_rename`: the two conversions succeed together, with one structure.
-/

namespace Transducers

/-- Other names for states, symbols and outputs, different for different names. -/
structure Renaming where
  state : String ↪ String
  symbol : String ↪ String
  output : String ↪ String

/-! ## Maps -/

theorem Entries.find?_map {κ κ' α β : Type} [DecidableEq κ] [DecidableEq κ'] {f : κ → κ'}
    (hf : Function.Injective f) (g : α → β) (es : List (κ × α)) (k : κ) :
    Entries.find? (f k) (es.map fun e => (f e.1, g e.2)) = (Entries.find? k es).map g := by
  induction es with
  | nil => rfl
  | cons e es ih =>
    obtain ⟨l, v⟩ := e
    by_cases hl : l = k
    · simp [Entries.find?, hl]
    · simp only [List.map_cons, Entries.find?, if_neg hl, if_neg (hf.ne hl), ih]

namespace OrderedMap

variable {κ κ' α β : Type}

/-- The map with other keys and values, in the same order. -/
def mapEntries (f : κ ↪ κ') (g : α → β) (m : OrderedMap κ α) : OrderedMap κ' β where
  entries := m.entries.map fun e => (f e.1, g e.2)
  nodup_keys := by
    have hkeys : (m.entries.map fun e => (f e.1, g e.2)).map Prod.fst = m.keys.map f := by
      simp [keys]
    rw [hkeys]
    exact m.keys_nodup.map f.injective

theorem get?_mapEntries [DecidableEq κ] [DecidableEq κ'] (f : κ ↪ κ') (g : α → β)
    (m : OrderedMap κ α) (k : κ) : (m.mapEntries f g).get? (f k) = (m.get? k).map g :=
  Entries.find?_map f.injective g m.entries k

end OrderedMap

/-! ## Machines under other names -/

namespace Renaming

/-- The pair of a state and an output. -/
def pair (ρ : Renaming) : String × String ↪ String × String := ρ.state.prodMap ρ.output

@[simp] theorem pair_apply (ρ : Renaming) (p : String × String) :
    ρ.pair p = (ρ.state p.1, ρ.output p.2) := rfl

end Renaming

def Transition.rename (ρ : Renaming) (t : Transition) : Transition :=
  ⟨ρ.state t.next, ρ.output t.output⟩

def MachineError.rename (ρ : Renaming) : MachineError → MachineError
  | missingTransition state symbol => missingTransition (ρ.state state) (ρ.symbol symbol)
  | missingOutput state => missingOutput (ρ.state state)
  | unmappedInitialState state => unmappedInitialState (ρ.state state)
  | unmappedState state => unmappedState (ρ.state state)

namespace Mealy

/-- The machine under other names. -/
def rename (ρ : Renaming) (m : Mealy) : Mealy where
  states := m.states.map ρ.state
  inputSymbols := m.inputSymbols.map ρ.symbol
  transitions := m.transitions.mapEntries ρ.state
    (OrderedMap.mapEntries ρ.symbol (Transition.rename ρ))
  initialState := ρ.state m.initialState
  initialOutput := m.initialOutput.map ρ.output
  stateOutputs := m.stateOutputs.mapEntries ρ.state ρ.output

variable (ρ : Renaming) (m : Mealy)

theorem cell?_rename (s x : String) :
    (m.rename ρ).transitions.cell? (ρ.state s) (ρ.symbol x) =
      (m.transitions.cell? s x).map (Transition.rename ρ) := by
  unfold Table.cell? rename
  rw [OrderedMap.get?_mapEntries]
  cases m.transitions.get? s with
  | none => rfl
  | some row => exact OrderedMap.get?_mapEntries ρ.symbol (Transition.rename ρ) row x

theorem get?_stateOutputs_rename (s : String) :
    (m.rename ρ).stateOutputs.get? (ρ.state s) = (m.stateOutputs.get? s).map ρ.output :=
  OrderedMap.get?_mapEntries ρ.state ρ.output m.stateOutputs s

theorem declaredPairs_rename : (m.rename ρ).declaredPairs =
    m.declaredPairs.map fun p => (ρ.state p.1, ρ.symbol p.2) := by
  simp only [declaredPairs, statePairs, rename, List.flatMap_map, List.map_flatMap, List.map_map]
  rfl

/-! ## The pairs that need a Moore state -/

theorem mem_map_fst_pair {ρ : Renaming} {ps : List (String × String)} {s : String} :
    ρ.state s ∈ (ps.map ρ.pair).map Prod.fst ↔ s ∈ ps.map Prod.fst := by
  have hmap : (ps.map ρ.pair).map Prod.fst = (ps.map Prod.fst).map ρ.state := by simp
  rw [hmap]
  exact List.mem_map_of_injective ρ.state.injective

theorem enteredPairs_rename : (m.rename ρ).enteredPairs = m.enteredPairs.map ρ.pair := by
  unfold enteredPairs targets
  rw [declaredPairs_rename, List.filterMap_map, List.map_filterMap]
  refine List.filterMap_congr fun p _ => ?_
  show ((m.rename ρ).transitions.cell? (ρ.state p.1) (ρ.symbol p.2)).map _ = _
  rw [cell?_rename]
  cases m.transitions.cell? p.1 p.2 <;> rfl

theorem initialPairs_rename : (m.rename ρ).initialPairs = m.initialPairs.map ρ.pair := by
  have hinitial : (m.rename ρ).initialState = ρ.state m.initialState := rfl
  have houtput : (m.rename ρ).initialOutput = m.initialOutput.map ρ.output := rfl
  unfold initialPairs
  rw [houtput, hinitial, enteredPairs_rename, get?_stateOutputs_rename]
  cases m.initialOutput with
  | some output => rfl
  | none =>
    simp only [Option.map_none, mem_map_fst_pair]
    split
    · rfl
    · cases m.stateOutputs.get? m.initialState <;> rfl

theorem begunPairs_rename : (m.rename ρ).begunPairs = m.begunPairs.map ρ.pair := by
  rw [begunPairs, begunPairs, enteredPairs_rename, initialPairs_rename, List.map_append]

theorem hintedPairs_rename :
    (m.rename ρ).hintedPairs ((m.rename ρ).begunPairs.map Prod.fst) (m.rename ρ).states =
      (m.hintedPairs (m.begunPairs.map Prod.fst) m.states).map ρ.pair := by
  have hstates : (m.rename ρ).states = m.states.map ρ.state := rfl
  unfold hintedPairs
  rw [begunPairs_rename, hstates, List.filter_map, List.filterMap_map, List.map_filterMap]
  have hfilter : m.states.filter ((· ∉ (m.begunPairs.map ρ.pair).map Prod.fst) ∘ ρ.state) =
      m.states.filter (· ∉ m.begunPairs.map Prod.fst) := by
    refine List.filter_congr fun s _ => ?_
    simp only [Function.comp_apply, mem_map_fst_pair]
  rw [hfilter]
  refine List.filterMap_congr fun s _ => ?_
  simp only [Function.comp_apply, get?_stateOutputs_rename, Option.map_map]
  rfl

/-- **The same pairs under other names**, in the same order. -/
theorem splitPairs_rename : (m.rename ρ).splitPairs = m.splitPairs.map ρ.pair := by
  unfold splitPairs
  rw [hintedPairs_rename, begunPairs_rename, ← List.map_append, eraseDups_map ρ.pair.injective]

theorem initialPair?_rename : (m.rename ρ).initialPair? = m.initialPair?.map ρ.pair := by
  have hinitial : (m.rename ρ).initialState = ρ.state m.initialState := rfl
  have houtput : (m.rename ρ).initialOutput = m.initialOutput.map ρ.output := rfl
  unfold initialPair?
  rw [houtput, hinitial, splitPairs_rename]
  cases m.initialOutput with
  | some output => rfl
  | none =>
    simp only [Option.map_none, List.find?_map]
    congr 2
    funext p
    simp

/-! ## What stands in the way -/

theorem firstMissing?_rename : (m.rename ρ).firstMissing? =
    m.firstMissing?.map fun p => (ρ.state p.1, ρ.symbol p.2) := by
  unfold firstMissing?
  rw [declaredPairs_rename, List.find?_map]
  congr 2
  funext p
  simp [cell?_rename]

theorem firstUnmapped?_rename :
    (m.rename ρ).firstUnmapped? = m.firstUnmapped?.map ρ.state := by
  have hstates : (m.rename ρ).states = m.states.map ρ.state := rfl
  unfold firstUnmapped?
  rw [begunPairs_rename, hstates, List.find?_map]
  congr 2
  funext s
  simp only [Function.comp_apply, mem_map_fst_pair, get?_stateOutputs_rename,
    Option.map_eq_none_iff]

theorem obstacle?_rename :
    (m.rename ρ).obstacle? = m.obstacle?.map (MachineError.rename ρ) := by
  have hinitial : (m.rename ρ).initialState = ρ.state m.initialState := rfl
  unfold obstacle?
  rw [firstMissing?_rename, firstUnmapped?_rename, begunPairs_rename, hinitial]
  cases m.firstMissing? with
  | some p => rfl
  | none =>
    simp only [Option.map_none, mem_map_fst_pair]
    split
    · cases m.firstUnmapped? <;> rfl
    · rfl

end Mealy

/-! ## The two results -/

namespace Moore

/-- The ids stand at one place of the lists of states of the two machines. -/
def Facing (M M' : Moore) (id id' : String) : Prop :=
  ∃ i : Nat, M.states[i]? = some id ∧ M'.states[i]? = some id'

/-- The machines have one structure: going from each state of the first to the state at the
same place of the second carries over the initial state, the outputs and the transitions,
and leaves out no transition of the second. -/
structure Corresponds (ρ : Renaming) (M M' : Moore) : Prop where
  length_states : M'.states.length = M.states.length
  nodup_states : M.states.Nodup ∧ M'.states.Nodup
  inputSymbols : M'.inputSymbols = M.inputSymbols.map ρ.symbol
  initialState : Facing M M' M.initialState M'.initialState
  output : ∀ id id', Facing M M' id id' →
    ∃ o, M.output id = .ok o ∧ M'.output id' = .ok (ρ.output o)
  transition : ∀ id id', Facing M M' id id' → ∀ x next, M.transition id x = .ok next →
    ∃ next', Facing M M' next next' ∧ M'.transition id' (ρ.symbol x) = .ok next'
  transition_back : ∀ id id', Facing M M' id id' → ∀ x' next', M'.transition id' x' = .ok next' →
    ∃ x next, ρ.symbol x = x' ∧ Facing M M' next next' ∧ M.transition id x = .ok next

end Moore

namespace Mealy

section Converted

variable {m : Mealy} {ρ : Renaming} {M M' : Moore} (h : m.toMoore = .ok M)
include h

theorem makes_iff_getElem? {p : String × String} {id : String} :
    m.Makes p id ↔ ∃ i : Nat, m.splitPairs[i]? = some p ∧ M.states[i]? = some id := by
  rw [makes_iff_mem_zip h, List.mem_iff_getElem?]
  simp only [List.getElem?_zip_eq_some]

variable (h' : (m.rename ρ).toMoore = .ok M')
include h'

/-- **Ids at one place** are those of one pair and of the pair under its other names. -/
theorem facing_iff_makes {id id' : String} :
    Moore.Facing M M' id id' ↔ ∃ p, m.Makes p id ∧ (m.rename ρ).Makes (ρ.pair p) id' := by
  simp only [makes_iff_getElem? h, makes_iff_getElem? h', splitPairs_rename]
  constructor
  · rintro ⟨i, hid, hid'⟩
    have hi : i < m.splitPairs.length := by
      rw [← length_states_toMoore h]
      exact (List.getElem?_eq_some_iff.mp hid).1
    have hp : m.splitPairs[i]? = some m.splitPairs[i] := List.getElem?_eq_getElem hi
    refine ⟨m.splitPairs[i], ⟨i, hp, hid⟩, i, ?_, hid'⟩
    rw [List.getElem?_map, hp, Option.map_some]
  · rintro ⟨p, ⟨i, hp, hid⟩, j, hp', hid'⟩
    -- a pair stands in the list once, and so at one place in both lists
    have hpj : m.splitPairs[j]? = some p := by
      rw [List.getElem?_map, Option.map_eq_some_iff] at hp'
      obtain ⟨q, hq, hpq⟩ := hp'
      rw [hq, ρ.pair.injective hpq]
    have hi : i < m.splitPairs.length := (List.getElem?_eq_some_iff.mp hp).1
    have hij : i = j := by
      apply (List.getElem?_inj hi (nodup_eraseDups _)).mp
      rw [hp, hpj]
    exact ⟨i, hid, hij ▸ hid'⟩

theorem corresponds_rename : Moore.Corresponds ρ M M' where
  length_states := by
    rw [length_states_toMoore h, length_states_toMoore h', splitPairs_rename, List.length_map]
  nodup_states := ⟨nodup_states_toMoore h, nodup_states_toMoore h'⟩
  inputSymbols := by
    rw [inputSymbols_toMoore h, inputSymbols_toMoore h']
    rfl
  initialState := by
    obtain ⟨p, hp, hid⟩ := initialPair?_toMoore h
    obtain ⟨p', hp', hid'⟩ := initialPair?_toMoore h'
    rw [initialPair?_rename, hp, Option.map_some, Option.some.injEq] at hp'
    exact (facing_iff_makes h h').mpr ⟨p, hid, hp' ▸ hid'⟩
  output := by
    intro id id' hface
    obtain ⟨p, hid, hid'⟩ := (facing_iff_makes h h').mp hface
    refine ⟨p.2, ?_, ?_⟩
    · exact Moore.output_eq_ok_iff.mpr (get?_outputs_toMoore h hid)
    · exact Moore.output_eq_ok_iff.mpr (get?_outputs_toMoore h' hid')
  transition := by
    intro id id' hface x next hnext
    obtain ⟨p, hid, hid'⟩ := (facing_iff_makes h h').mp hface
    rw [Moore.transition_eq_ok_iff] at hnext
    obtain ⟨s, t, hs, hx, ⟨o, ho⟩, ht, hmade⟩ := (cell?_toMoore h).mp hnext
    have hps : p.1 = s := congrArg Prod.fst (Makes.unique h hid ho)
    have ht' : (m.rename ρ).transitions.cell? (ρ.state s) (ρ.symbol x) = some (t.rename ρ) := by
      rw [cell?_rename, ht, Option.map_some]
    have hs' : ρ.state s ∈ (m.rename ρ).states := List.mem_map_of_mem hs
    have hx' : ρ.symbol x ∈ (m.rename ρ).inputSymbols := List.mem_map_of_mem hx
    obtain ⟨next', hmade'⟩ := exists_makes_target h' hs' hx' ht'
    refine ⟨next', (facing_iff_makes h h').mpr ⟨_, hmade, hmade'⟩, ?_⟩
    rw [Moore.transition_eq_ok_iff, cell?_toMoore h']
    refine ⟨ρ.state s, t.rename ρ, hs', hx', ⟨ρ.output p.2, ?_⟩, ht', hmade'⟩
    rw [← hps]
    exact hid'
  transition_back := by
    intro id id' hface x' next' hnext'
    obtain ⟨p, hid, hid'⟩ := (facing_iff_makes h h').mp hface
    rw [Moore.transition_eq_ok_iff] at hnext'
    obtain ⟨s', t', hs', hx', ⟨o', ho'⟩, ht', hmade'⟩ := (cell?_toMoore h').mp hnext'
    have hps' : ρ.state p.1 = s' := congrArg Prod.fst (Makes.unique h' hid' ho')
    obtain ⟨x, hx, rfl⟩ := List.mem_map.mp hx'
    obtain ⟨s, hs, rfl⟩ := List.mem_map.mp hs'
    have hps : p.1 = s := ρ.state.injective hps'
    rw [cell?_rename, Option.map_eq_some_iff] at ht'
    obtain ⟨t, ht, rfl⟩ := ht'
    obtain ⟨next, hmade⟩ := exists_makes_target h hs hx ht
    refine ⟨x, next, rfl, (facing_iff_makes h h').mpr ⟨_, hmade, hmade'⟩, ?_⟩
    rw [Moore.transition_eq_ok_iff, cell?_toMoore h]
    refine ⟨s, t, hs, hx, ⟨p.2, ?_⟩, ht, hmade⟩
    rw [← hps]
    exact hid

end Converted

/-- **Names carry no structure.**  Under other names a conversion fails exactly if it failed
before, with the same error under the other names; and if both succeed, the results have
one structure, whatever ids the names lead to. -/
theorem toMoore_rename (ρ : Renaming) (m : Mealy) :
    (∀ e', (m.rename ρ).toMoore = .error e' ↔ ∃ e, m.toMoore = .error e ∧ e.rename ρ = e') ∧
    ∀ M M', m.toMoore = .ok M → (m.rename ρ).toMoore = .ok M' → Moore.Corresponds ρ M M' := by
  refine ⟨fun e' => ?_, fun M M' h h' => corresponds_rename h h'⟩
  simp only [toMoore_eq_error_iff, obstacle?_rename, Option.map_eq_some_iff]

/-- The pairs `(A_b, c)` and `(A, b_c)` have one name. -/
def sharing : Mealy :=
  ((((new "A").withTransition "A" "0" "A_b" "c").withTransition "A" "1" "A" "b_c").withTransition
    "A_b" "0" "A" "b_c").withTransition "A_b" "1" "A" "b_c"

/-- Every output with an `x` before it. -/
def marked : Renaming where
  state := .refl String
  symbol := .refl String
  output := ⟨("x" ++ ·), fun a b h => by simpa using h⟩

theorem toMoore_rename_sharing :
    ∃ M M', sharing.toMoore = .ok M ∧ (sharing.rename marked).toMoore = .ok M' ∧
      M.states = ["A_b_c", "A_b_c'"] ∧ M'.states = ["A_b_xc", "A_xb_c"] ∧
      Moore.Corresponds marked M M' := by
  refine ⟨_, _, rfl, rfl, by decide, by decide, ?_⟩
  exact (toMoore_rename marked sharing).2 _ _ rfl rfl

end Mealy

end Transducers
