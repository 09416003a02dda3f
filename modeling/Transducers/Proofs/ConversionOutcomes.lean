import Transducers.Proofs.MooreStates

/-!
# When a Mealy machine has a Moore machine

Three things can stand in the way of a conversion to Moore, and the first that does is
the one reported: a gap in the table, an initial state without an output, and another
declared state without one.

* `Mealy.Total`, `Mealy.Enters`: the table has no gap; a declared transition leads to a state;
* `Mealy.Blocked`: what stands in the way, each case with those before it ruled out;
* `toMoore_eq_error_iff_blocked`: a conversion fails exactly with what stands in its way;
* `exists_toMoore_iff`: it succeeds if there is nothing;
* `toMoore_outcome`: both, and from where each Moore state has its output.
-/

namespace Transducers

namespace Mealy

/-- Every declared state has a transition on every declared symbol. -/
def Total (m : Mealy) : Prop :=
  ∀ state ∈ m.states, ∀ symbol ∈ m.inputSymbols, ∃ t, m.transition state symbol = .ok t

/-- Some declared state goes to this state on some declared symbol. -/
def Enters (m : Mealy) (next : String) : Prop :=
  ∃ state ∈ m.states, ∃ symbol ∈ m.inputSymbols, ∃ output,
    m.transition state symbol = .ok ⟨next, output⟩

/-- Something gives the initial state an output. -/
def InitialGiven (m : Mealy) : Prop :=
  (∃ output, m.initialOutput = some output) ∨ m.Enters m.initialState ∨
    ∃ output, m.stateOutputs.get? m.initialState = some output

/-- The state is not the initial one, nothing enters it, and it has no output aside. -/
def Unmapped (m : Mealy) (state : String) : Prop :=
  state ≠ m.initialState ∧ ¬ m.Enters state ∧ m.stateOutputs.get? state = none

/-- What stands in the way of a conversion. -/
inductive Blocked (m : Mealy) : MachineError → Prop
  /-- The first declared state and symbol without a transition, states first. -/
  | missingTransition {state symbol : String}
      (first : FirstWith (fun p => ∀ t, m.transition p.1 p.2 ≠ .ok t) m.declaredPairs
        (state, symbol)) : Blocked m (.missingTransition state symbol)
  | unmappedInitialState (total : m.Total) (bare : ¬ m.InitialGiven) :
      Blocked m (.unmappedInitialState m.initialState)
  /-- The first declared state that is unmapped. -/
  | unmappedState (total : m.Total) (given : m.InitialGiven) {state : String}
      (first : FirstWith m.Unmapped m.states state) : Blocked m (.unmappedState state)

/-! ## The phases -/

theorem cell?_eq_none_iff {m : Mealy} {state symbol : String} :
    m.transitions.cell? state symbol = none ↔ ∀ t, m.transition state symbol ≠ .ok t := by
  simp only [ne_eq, transition_eq_ok_iff, Option.eq_none_iff_forall_ne_some]

theorem firstMissing?_eq_some_iff {m : Mealy} {p : String × String} :
    m.firstMissing? = some p ↔
      FirstWith (fun p => ∀ t, m.transition p.1 p.2 ≠ .ok t) m.declaredPairs p := by
  simp only [firstMissing?, find?_eq_some_iff_firstWith, decide_eq_true_eq, cell?_eq_none_iff]

theorem firstMissing?_eq_none_iff {m : Mealy} : m.firstMissing? = none ↔ m.Total := by
  rw [firstMissing?, List.find?_eq_none]
  constructor
  · intro h state hs symbol hx
    have hcell := h (state, symbol) (mem_declaredPairs.mpr ⟨hs, hx⟩)
    obtain ⟨t, ht⟩ := Option.ne_none_iff_exists'.mp (by simpa using hcell)
    exact ⟨t, transition_eq_ok_iff.mpr ht⟩
  · rintro h ⟨state, symbol⟩ hp
    obtain ⟨hs, hx⟩ := mem_declaredPairs.mp hp
    obtain ⟨t, ht⟩ := h state hs symbol hx
    simp [transition_eq_ok_iff.mp ht]

theorem mem_map_enteredPairs {m : Mealy} {next : String} :
    next ∈ m.enteredPairs.map Prod.fst ↔ m.Enters next := by
  simp only [List.mem_map, mem_enteredPairs, Enters, transition_eq_ok_iff]
  constructor
  · rintro ⟨⟨_, output⟩, ⟨state, hs, symbol, hx, ht⟩, rfl⟩
    exact ⟨state, hs, symbol, hx, output, ht⟩
  · rintro ⟨state, hs, symbol, hx, output, ht⟩
    exact ⟨(next, output), ⟨state, hs, symbol, hx, ht⟩, rfl⟩

/-- After the second phase the initial state is mapped if anything gives it an output. -/
theorem initialState_begun_iff {m : Mealy} :
    m.initialState ∈ m.begunPairs.map Prod.fst ↔ m.InitialGiven := by
  rw [begunPairs, List.map_append, List.mem_append, mem_map_enteredPairs, InitialGiven,
    initialPairs]
  cases ho : m.initialOutput with
  | some output => simp
  | none =>
    simp only [mem_map_enteredPairs]
    by_cases he : m.Enters m.initialState
    · simp [he]
    · have hmem : m.initialState ∉ m.enteredPairs.map Prod.fst := mt mem_map_enteredPairs.mp he
      rw [if_neg hmem]
      cases m.stateOutputs.get? m.initialState <;> simp [he]

/-- Another state is mapped by then only if it is entered. -/
theorem begun_iff_of_ne {m : Mealy} {state : String} (h : state ≠ m.initialState) :
    state ∈ m.begunPairs.map Prod.fst ↔ m.Enters state := by
  rw [begunPairs, List.map_append, List.mem_append, mem_map_enteredPairs]
  constructor
  · rintro (he | hi)
    · exact he
    · obtain ⟨p, hp, rfl⟩ := List.mem_map.mp hi
      exact absurd (fst_of_mem_initialPairs hp) h
  · exact Or.inl

theorem unmapped_iff {m : Mealy} (h : m.InitialGiven) {state : String} :
    m.Unmapped state ↔
      state ∉ m.begunPairs.map Prod.fst ∧ m.stateOutputs.get? state = none := by
  by_cases hs : state = m.initialState
  · have hbegun := initialState_begun_iff.mpr h
    rw [← hs] at hbegun
    exact ⟨fun hu => absurd hs hu.1, fun hn => absurd hbegun hn.1⟩
  · rw [Unmapped, begun_iff_of_ne hs]
    simp [hs]

theorem firstUnmapped?_eq_some_iff {m : Mealy} (h : m.InitialGiven) {state : String} :
    m.firstUnmapped? = some state ↔ FirstWith m.Unmapped m.states state := by
  have hunmapped : m.Unmapped = fun s =>
      s ∉ m.begunPairs.map Prod.fst ∧ m.stateOutputs.get? s = none :=
    funext fun s => propext (unmapped_iff h)
  simp only [firstUnmapped?, find?_eq_some_iff_firstWith, decide_eq_true_eq, hunmapped]

theorem firstUnmapped?_eq_none_iff {m : Mealy} (h : m.InitialGiven) :
    m.firstUnmapped? = none ↔ ∀ state ∈ m.states, ¬ m.Unmapped state := by
  rw [firstUnmapped?, List.find?_eq_none]
  refine forall₂_congr fun state _ => ?_
  rw [unmapped_iff h, decide_eq_true_eq]

/-! ## The outcome -/

theorem obstacle?_eq_some_iff {m : Mealy} {e : MachineError} :
    m.obstacle? = some e ↔ m.Blocked e := by
  unfold obstacle?
  constructor
  · intro h
    cases ht : m.firstMissing? with
    | some p =>
      rw [ht] at h
      cases h
      exact .missingTransition (firstMissing?_eq_some_iff.mp ht)
    | none =>
      have htotal := firstMissing?_eq_none_iff.mp ht
      rw [ht] at h
      simp only at h
      split at h
      · rename_i hbegun
        have hgiven := initialState_begun_iff.mp hbegun
        obtain ⟨state, hu, rfl⟩ := Option.map_eq_some_iff.mp h
        exact .unmappedState htotal hgiven ((firstUnmapped?_eq_some_iff hgiven).mp hu)
      · rename_i hbegun
        cases h
        exact .unmappedInitialState htotal (mt initialState_begun_iff.mpr hbegun)
  · intro h
    cases h with
    | missingTransition first => rw [firstMissing?_eq_some_iff.mpr first]
    | unmappedInitialState total bare =>
      rw [firstMissing?_eq_none_iff.mpr total]
      exact if_neg (mt initialState_begun_iff.mp bare)
    | unmappedState total given first =>
      rw [firstMissing?_eq_none_iff.mpr total, (firstUnmapped?_eq_some_iff given).mpr first]
      exact if_pos (initialState_begun_iff.mpr given)

/-- **When a conversion fails**, and with what. -/
theorem toMoore_eq_error_iff_blocked {m : Mealy} {e : MachineError} :
    m.toMoore = .error e ↔ m.Blocked e :=
  toMoore_eq_error_iff.trans obstacle?_eq_some_iff

/-- **When it succeeds.** -/
theorem exists_toMoore_iff {m : Mealy} : (∃ M, m.toMoore = .ok M) ↔
    m.Total ∧ m.InitialGiven ∧ ∀ state ∈ m.states, ¬ m.Unmapped state := by
  constructor
  · rintro ⟨M, h⟩
    have hfree : ∀ e, ¬ m.Blocked e := by
      intro e he
      rw [toMoore_eq_error_iff_blocked.mpr he] at h
      cases h
    have htotal : m.Total := by
      cases ht : m.firstMissing? with
      | none => exact firstMissing?_eq_none_iff.mp ht
      | some p => exact absurd (.missingTransition (firstMissing?_eq_some_iff.mp ht)) (hfree _)
    have hgiven : m.InitialGiven := by
      by_contra hbare
      exact hfree _ (.unmappedInitialState htotal hbare)
    refine ⟨htotal, hgiven, ?_⟩
    cases hu : m.firstUnmapped? with
    | none => exact (firstUnmapped?_eq_none_iff hgiven).mp hu
    | some state =>
      have hfirst := (firstUnmapped?_eq_some_iff hgiven).mp hu
      exact absurd (.unmappedState htotal hgiven hfirst) (hfree _)
  · rintro ⟨htotal, hgiven, hmapped⟩
    cases h : m.toMoore with
    | ok M => exact ⟨M, rfl⟩
    | error e =>
      cases toMoore_eq_error_iff_blocked.mp h with
      | missingTransition first =>
        obtain ⟨hs, hx⟩ := mem_declaredPairs.mp first.mem
        obtain ⟨t, ht⟩ := htotal _ hs _ hx
        exact absurd ht (first.holds t)
      | unmappedInitialState _ bare => exact absurd hgiven bare
      | unmappedState _ _ first => exact absurd first.holds (hmapped _ first.mem)

/-- The Moore states of a state that is not initial: one for each output with which it is
entered, or else one for its output aside. -/
theorem Makes.source {m : Mealy} {M : Moore} (h : m.toMoore = .ok M) {state output id : String}
    (hne : state ≠ m.initialState) (hid : m.Makes (state, output) id) :
    (∃ s ∈ m.states, ∃ x ∈ m.inputSymbols, m.transition s x = .ok ⟨state, output⟩) ∨
      ¬ m.Enters state ∧ m.stateOutputs.get? state = some output := by
  have hp := (exists_makes_iff h).mp ⟨id, hid⟩
  rw [splitPairs, List.mem_eraseDups, begunPairs, List.mem_append, List.mem_append] at hp
  rcases hp with (he | hi) | hh
  · simp only [transition_eq_ok_iff]
    exact Or.inl (mem_enteredPairs.mp he)
  · exact absurd (fst_of_mem_initialPairs hi) hne
  · obtain ⟨-, hn, ho⟩ := mem_hintedPairs.mp hh
    exact Or.inr ⟨mt (begun_iff_of_ne hne).mpr hn, ho⟩

/-- **The outcome of a conversion.**  It fails with what stands in its way: the first
declared state and symbol without a transition; else the initial state, if neither the
initial output nor a transition nor an output aside gives it one; else the first other
declared state that is neither entered nor has an output aside.  It succeeds if there is
no such thing.  The initial output is for the initial state only: the hint of every other
state, and the output of every Moore state that only a hint can have made, is the one
that is kept aside. -/
theorem toMoore_outcome (m : Mealy) :
    (∀ e, m.toMoore = .error e ↔ m.Blocked e) ∧
    ((∃ M, m.toMoore = .ok M) ↔
      m.Total ∧ m.InitialGiven ∧ ∀ state ∈ m.states, ¬ m.Unmapped state) ∧
    (∀ state, m.toMoore = .error (.unmappedState state) → state ≠ m.initialState) ∧
    (∀ state, state ≠ m.initialState → m.outputHint state = m.stateOutputs.get? state) ∧
    (∀ M state output id, m.toMoore = .ok M → state ≠ m.initialState →
      m.Makes (state, output) id →
      (∃ s ∈ m.states, ∃ x ∈ m.inputSymbols, m.transition s x = .ok ⟨state, output⟩) ∨
        ¬ m.Enters state ∧ m.stateOutputs.get? state = some output) := by
  refine ⟨fun e => toMoore_eq_error_iff_blocked, exists_toMoore_iff, ?_,
    fun state => outputHint_of_ne, fun M state output id h hne hid => hid.source h hne⟩
  intro state h
  cases toMoore_eq_error_iff_blocked.mp h with
  | unmappedState _ _ first => exact first.holds.1

/-- Nothing enters the initial state `S` or the state `D`, and only `S` has an output. -/
def lopsided : Mealy :=
  ((((new "S").withInitialOutput "-").withTransition "S" "0" "A" "x").withTransition
    "A" "0" "A" "y").withTransition "D" "0" "A" "x"

/-- The same machine with an output aside for `D`. -/
def evened : Mealy :=
  lopsided.withStateOutput "D" "w"

theorem toMoore_outcome_lopsided :
    lopsided.toMoore = .error (.unmappedState "D") ∧ lopsided.Blocked (.unmappedState "D") ∧
    "D" ≠ lopsided.initialState ∧ lopsided.outputHint "D" = lopsided.stateOutputs.get? "D" ∧
    ∃ M, evened.toMoore = .ok M ∧ evened.Makes ("D", "w") "D_w" ∧
      ((∃ s ∈ evened.states, ∃ x ∈ evened.inputSymbols,
          evened.transition s x = .ok ⟨"D", "w"⟩) ∨
        ¬ evened.Enters "D" ∧ evened.stateOutputs.get? "D" = some "w") := by
  obtain ⟨herror, -, hne, hhint, -⟩ := toMoore_outcome lopsided
  obtain ⟨-, -, -, -, hmade⟩ := toMoore_outcome evened
  have hfails : lopsided.toMoore = .error (.unmappedState "D") := by decide
  have hmakes : evened.Makes ("D", "w") "D_w" := by
    unfold Makes
    decide
  refine ⟨hfails, (herror _).mp hfails, hne "D" hfails, hhint "D" (hne "D" hfails), _, rfl,
    hmakes, ?_⟩
  exact hmade _ "D" "w" "D_w" rfl (by decide) hmakes

end Mealy

end Transducers
