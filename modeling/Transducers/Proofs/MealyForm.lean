import Mathlib.Data.List.Perm.Basic
import Transducers.Proofs.ConversionOutcomes
import Transducers.Proofs.RoundTrip

/-!
# Which Mealy machine a Moore machine has

The conversion goes through the declared states and symbols in order, and stops at the
first pair for which it finds no destination or no output of the destination.

* `Moore.Emits`, `Moore.Lacks`: a pair has what a transition needs; what it lacks;
* `toMealy_eq_error_iff`: a conversion fails with what the first such pair lacks;
* `Mealy.FormOf`: the machine that a conversion is to make;
* `formOf_toMealy`, `FormOf.unique`: it makes that machine, and there is only one such;
* `Mealy.Gives`: where a Mealy machine has an output of a state;
* `toMealy_meets_definition`: all of it, and that each output has one source.
-/

namespace Transducers

namespace Moore

/-- Some declared state goes to this state on some declared symbol. -/
def Enters (m : Moore) (next : String) : Prop :=
  ∃ state ∈ m.states, ∃ symbol ∈ m.inputSymbols, m.transition state symbol = .ok next

/-- The state has a transition on the symbol, and the destination has an output. -/
def Emits (m : Moore) (state symbol : String) : Prop :=
  ∃ next output, m.transition state symbol = .ok next ∧ m.output next = .ok output

/-- What a state and a symbol lack: a transition, or an output of its destination. -/
inductive Lacks (m : Moore) (state symbol : String) : MachineError → Prop
  | transition (gap : ∀ next, m.transition state symbol ≠ .ok next) :
      Lacks m state symbol (.missingTransition state symbol)
  | output {next : String} (step : m.transition state symbol = .ok next)
      (silent : ∀ output, m.output next ≠ .ok output) :
      Lacks m state symbol (.missingOutput next)

end Moore

/-- The Mealy machine that emits on each transition the output of the state it enters, and
keeps the outputs that no transition emits. -/
structure Mealy.FormOf (n : Mealy) (m : Moore) : Prop where
  states : n.states = m.states
  inputSymbols : n.inputSymbols = m.inputSymbols
  initialState : n.initialState = m.initialState
  initialOutput : ∀ output, n.initialOutput = some output ↔ m.output m.initialState = .ok output
  /-- One row for each declared state, and no other. -/
  rows : n.transitions.keys = m.states.eraseDups
  /-- In each row one cell for each declared symbol, and no other. -/
  cells : ∀ state row, n.transitions.get? state = some row → row.keys = m.inputSymbols.eraseDups
  transition : ∀ state ∈ m.states, ∀ symbol ∈ m.inputSymbols, ∃ next output,
    m.transition state symbol = .ok next ∧ m.output next = .ok output ∧
      n.transition state symbol = .ok ⟨next, output⟩
  /-- The outputs aside are in the order in which their states are declared. -/
  aside : n.stateOutputs.keys.Sublist m.states.eraseDups
  asideOutput : ∀ state output, n.stateOutputs.get? state = some output ↔
    state ∈ m.states ∧ state ≠ m.initialState ∧ ¬ m.Enters state ∧ m.output state = .ok output

/-- Where a Mealy machine has an output of a state: on a transition into it, as the
initial output, or aside. -/
inductive Mealy.Gives (n : Mealy) (state output : String) : Prop
  | entered {source symbol : String} (hs : source ∈ n.states) (hx : symbol ∈ n.inputSymbols)
      (step : n.transition source symbol = .ok ⟨state, output⟩)
  | initial (hi : state = n.initialState) (ho : n.initialOutput = some output)
  | aside (ho : n.stateOutputs.get? state = some output)

namespace Moore

/-! ## Failures -/

theorem emits_iff {m : Moore} {state symbol : String} :
    m.Emits state symbol ↔ ∃ t, m.transitionTo state symbol = .ok t := by
  simp only [Emits, transition_eq_ok_iff, output_eq_ok_iff, transitionTo_eq_ok_iff]
  constructor
  · rintro ⟨next, output, hn, ho⟩
    exact ⟨⟨next, output⟩, hn, ho⟩
  · rintro ⟨t, hn, ho⟩
    exact ⟨t.next, t.output, hn, ho⟩

theorem transition_eq_error_iff {m : Moore} {state symbol : String} {e : MachineError} :
    m.transition state symbol = .error e ↔
      (∀ next, m.transition state symbol ≠ .ok next) ∧ .missingTransition state symbol = e := by
  unfold transition
  cases m.transitions.cell? state symbol <;> simp

theorem output_eq_error_iff_silent {m : Moore} {state : String} {e : MachineError} :
    m.output state = .error e ↔
      (∀ output, m.output state ≠ .ok output) ∧ .missingOutput state = e := by
  unfold Moore.output
  cases m.outputs.get? state <;> simp

theorem transitionTo_eq_error_iff {m : Moore} {state symbol : String} {e : MachineError} :
    m.transitionTo state symbol = .error e ↔ m.Lacks state symbol e := by
  constructor
  · intro h
    cases ht : m.transition state symbol with
    | error e' =>
      obtain ⟨hgap, rfl⟩ := transition_eq_error_iff.mp ht
      rw [transitionTo, ht] at h
      cases h
      exact .transition hgap
    | ok next =>
      cases ho : m.output next with
      | error e' =>
        obtain ⟨hsilent, rfl⟩ := output_eq_error_iff_silent.mp ho
        simp only [transitionTo, ht, ho, bind, Except.bind] at h
        cases h
        exact .output ht hsilent
      | ok output => simp [transitionTo, ht, ho, bind, Except.bind, pure, Except.pure] at h
  · intro h
    cases h with
    | transition gap =>
      rw [transitionTo, transition_eq_error_iff.mpr ⟨gap, rfl⟩]
      rfl
    | output step silent =>
      have ho := output_eq_error_iff_silent.mpr ⟨silent, rfl⟩
      simp only [transitionTo, step, ho, bind, Except.bind]

/-- The rows fail as the transitions do, taken one after another. -/
theorem mealyRows_eq_error_iff {m : Moore} {states : List String} {e : MachineError} :
    m.mealyRows states = .error e ↔
      tabulate (fun p : String × String => m.transitionTo p.1 p.2)
        (statePairs states m.inputSymbols) = .error e := by
  rw [mealyRows_eq_tabulate]
  -- the first row that fails has the first pair that fails, row by row
  induction states with
  | nil => simp [tabulate, statePairs]
  | cons state states ih =>
    have hrow : m.rowOf state = .error e ↔
        tabulate (m.transitionTo state) m.inputSymbols = .error e := by
      rw [rowOf, mealyRow_eq_tabulate]
      cases tabulate (m.transitionTo state) m.inputSymbols <;> simp [Except.map]
    have hmade : (∃ row, m.rowOf state = .ok row) ↔ ∃ es,
        tabulate (fun p : String × String => m.transitionTo p.1 p.2)
          (m.inputSymbols.map fun symbol => (state, symbol)) = .ok es := by
      simp only [exists_rowOf_iff, exists_tabulate_iff, List.forall_mem_map]
    have hpairs : statePairs (state :: states) m.inputSymbols =
        (m.inputSymbols.map fun symbol => (state, symbol)) ++ statePairs states m.inputSymbols :=
      List.flatMap_cons
    rw [tabulate_cons_eq_error_iff, ih, hrow, hmade, hpairs, tabulate_append_eq_error_iff,
      tabulate_map_eq_error_iff]

theorem toMealy_eq_error_iff {m : Moore} {e : MachineError} :
    m.toMealy = .error e ↔ ∃ state symbol,
      FirstWith (fun p => ¬ m.Emits p.1 p.2) m.declaredPairs (state, symbol) ∧
        m.Lacks state symbol e := by
  have hrows : m.toMealy = .error e ↔ m.mealyRows m.states = .error e := by
    unfold toMealy
    cases m.mealyRows m.states <;> simp [bind, Except.bind, pure, Except.pure]
  have hfails : (fun p : String × String => ∀ t, m.transitionTo p.1 p.2 ≠ .ok t) =
      fun p => ¬ m.Emits p.1 p.2 := by
    funext p
    rw [emits_iff, not_exists]
  rw [hrows, mealyRows_eq_error_iff, tabulate_eq_error_iff, hfails]
  simp only [Prod.exists, transitionTo_eq_error_iff]
  rfl

/-! ## The machine that is made -/

theorem mem_entered_iff_enters {m : Moore} {state : String} :
    state ∈ m.entered ↔ m.Enters state := by
  simp only [mem_entered, Enters, transition_eq_ok_iff]

section Converted

variable {m : Moore} {n : Mealy} (h : m.toMealy = .ok n)
include h

theorem keys_transitions_toMealy : n.transitions.keys = m.states.eraseDups := by
  obtain ⟨rows, hrows, rfl⟩ := toMealy_eq_ok h
  rw [mealyRows_eq_tabulate] at hrows
  simp only [keys_ofList, map_fst_of_tabulate hrows]

theorem keys_row_toMealy {state : String} {row : Row Transition}
    (hrow : n.transitions.get? state = some row) : row.keys = m.inputSymbols.eraseDups := by
  obtain ⟨rows, hrows, rfl⟩ := toMealy_eq_ok h
  rw [mealyRows_eq_tabulate] at hrows
  obtain ⟨-, hmade⟩ := (get?_ofList_tabulate hrows).mp hrow
  obtain ⟨cells, hcells, rfl⟩ := rowOf_eq_ok_iff.mp hmade
  rw [keys_ofList, map_fst_of_tabulate hcells]

/-- The states with an output aside are some of the declared ones, in order. -/
theorem keys_stateOutputs_toMealy : n.stateOutputs.keys.Sublist m.states.eraseDups := by
  obtain ⟨rows, -, rfl⟩ := toMealy_eq_ok h
  have hkey : (fun state => ((m.outputs.get? state).map fun output => (state, output)).map
      Prod.fst) = Option.guard fun state => (m.outputs.get? state).isSome := by
    funext state
    cases ho : m.outputs.get? state <;> simp [Option.guard, ho]
  simp only [keys_ofList, asideOutputs]
  rw [List.map_filterMap, hkey, List.filterMap_eq_filter, List.filter_filter, eraseDups_filter]
  exact List.filter_sublist

theorem formOf_toMealy : n.FormOf m where
  states := states_toMealy h
  inputSymbols := inputSymbols_toMealy h
  initialState := initialState_toMealy h
  initialOutput output := by rw [initialOutput_toMealy h, output_eq_ok_iff]
  rows := keys_transitions_toMealy h
  cells _ _ := keys_row_toMealy h
  transition state hs symbol hx := by
    obtain ⟨t, ht⟩ := exists_toMealy_iff.mp ⟨n, h⟩ state hs symbol hx
    obtain ⟨hn, ho⟩ := transitionTo_eq_ok_iff.mp ht
    have hcell := (cell?_toMealy h).mpr ⟨hs, hx, hn, ho⟩
    exact ⟨t.next, t.output, transition_eq_ok_iff.mpr hn, output_eq_ok_iff.mpr ho,
      Mealy.transition_eq_ok_iff.mpr hcell⟩
  aside := keys_stateOutputs_toMealy h
  asideOutput state output := by
    rw [get?_stateOutputs_toMealy h, mem_entered_iff_enters, output_eq_ok_iff]

end Converted

end Moore

namespace Mealy

/-! ## The form fixes the machine -/

theorem FormOf.mem_keys {n : Mealy} {m : Moore} (hn : n.FormOf m) {state : String} :
    state ∈ n.transitions.keys ↔ state ∈ m.states := by
  rw [hn.rows, List.mem_eraseDups]

theorem FormOf.cell?_eq_some_iff {n : Mealy} {m : Moore} (hn : n.FormOf m)
    {state symbol : String} {t : Transition} :
    n.transitions.cell? state symbol = some t ↔ state ∈ m.states ∧ symbol ∈ m.inputSymbols ∧
      m.transition state symbol = .ok t.next ∧ m.output t.next = .ok t.output := by
  have hlisted : state ∈ m.states → symbol ∈ m.inputSymbols →
      (n.transitions.cell? state symbol = some t ↔
        m.transition state symbol = .ok t.next ∧ m.output t.next = .ok t.output) := by
    intro hs hx
    obtain ⟨next, output, hnext, houtput, ht⟩ := hn.transition state hs symbol hx
    rw [transition_eq_ok_iff.mp ht, hnext, Option.some.injEq, Except.ok.injEq]
    constructor
    · rintro rfl
      exact ⟨rfl, houtput⟩
    · rintro ⟨rfl, ho⟩
      rw [houtput, Except.ok.injEq] at ho
      rw [ho]
  constructor
  · intro hcell
    obtain ⟨row, hrow, ht⟩ := Option.bind_eq_some_iff.mp hcell
    have hs : state ∈ m.states := by
      rw [← hn.mem_keys, OrderedMap.mem_keys_iff, hrow]
      rfl
    have hx : symbol ∈ m.inputSymbols := by
      rw [← List.mem_eraseDups, ← hn.cells state row hrow, OrderedMap.mem_keys_iff, ht]
      rfl
    exact ⟨hs, hx, (hlisted hs hx).mp hcell⟩
  · rintro ⟨hs, hx, ht⟩
    exact (hlisted hs hx).mpr ht

theorem FormOf.get?_row_eq {n n' : Mealy} {m : Moore} (hn : n.FormOf m) (hn' : n'.FormOf m)
    (state : String) : n.transitions.get? state = n'.transitions.get? state := by
  have hboth : n.transitions.get? state = none ↔ n'.transitions.get? state = none := by
    rw [OrderedMap.get?_eq_none_iff, OrderedMap.get?_eq_none_iff, hn.mem_keys, hn'.mem_keys]
  cases hrow : n.transitions.get? state with
  | none => rw [hboth.mp hrow]
  | some row =>
    cases hrow' : n'.transitions.get? state with
    | none =>
      rw [hboth.mpr hrow'] at hrow
      cases hrow
    | some row' =>
      have hget : ∀ symbol, row.get? symbol = row'.get? symbol := by
        intro symbol
        have hcell : n.transitions.cell? state symbol = n'.transitions.cell? state symbol :=
          Option.ext fun t => hn.cell?_eq_some_iff.trans hn'.cell?_eq_some_iff.symm
        simpa [Table.cell?, hrow, hrow'] using hcell
      have hkeys := (hn.cells state row hrow).trans (hn'.cells state row' hrow').symm
      rw [OrderedMap.ext_get? hkeys hget]

/-- There is only one machine of this form. -/
theorem FormOf.unique {n n' : Mealy} {m : Moore} (hn : n.FormOf m) (hn' : n'.FormOf m) :
    n = n' := by
  have hstates := hn.states.trans hn'.states.symm
  have hsymbols := hn.inputSymbols.trans hn'.inputSymbols.symm
  have htransitions : n.transitions = n'.transitions :=
    OrderedMap.ext_get? (hn.rows.trans hn'.rows.symm) (hn.get?_row_eq hn')
  have hstart := hn.initialState.trans hn'.initialState.symm
  have hinitial : n.initialOutput = n'.initialOutput :=
    Option.ext fun o => (hn.initialOutput o).trans (hn'.initialOutput o).symm
  have hget : ∀ state, n.stateOutputs.get? state = n'.stateOutputs.get? state := fun state =>
    Option.ext fun o => (hn.asideOutput state o).trans (hn'.asideOutput state o).symm
  -- two selections of one list that select the same are the same
  have hkeys : n.stateOutputs.keys = n'.stateOutputs.keys := by
    have hperm : n.stateOutputs.keys.Perm n'.stateOutputs.keys := by
      rw [List.perm_ext_iff_of_nodup n.stateOutputs.keys_nodup n'.stateOutputs.keys_nodup]
      intro state
      rw [OrderedMap.mem_keys_iff, OrderedMap.mem_keys_iff, hget]
    exact (List.Nodup.perm_iff_eq_of_sublist (nodup_eraseDups _) hn.aside hn'.aside).mp hperm
  have haside : n.stateOutputs = n'.stateOutputs := OrderedMap.ext_get? hkeys hget
  cases n
  cases n'
  rw [Mealy.mk.injEq]
  exact ⟨hstates, hsymbols, htransitions, hstart, hinitial, haside⟩

/-! ## Where the outputs are -/

theorem FormOf.enters_iff {n : Mealy} {m : Moore} (hn : n.FormOf m) {state : String} :
    n.Enters state ↔ m.Enters state := by
  rw [Mealy.Enters, Moore.Enters, hn.states, hn.inputSymbols]
  refine exists_congr fun s => and_congr_right fun hs => exists_congr fun x =>
    and_congr_right fun hx => ?_
  obtain ⟨next, output, hnext, -, ht⟩ := hn.transition s hs x hx
  rw [ht, hnext]
  simp

/-- The outputs of the machine are those of the states that occur, and each is that of its
state. -/
theorem FormOf.gives_iff {n : Mealy} {m : Moore} (hn : n.FormOf m) {state output : String} :
    n.Gives state output ↔ m.Occurs state ∧ m.output state = .ok output := by
  constructor
  · intro h
    cases h with
    | entered hs hx step =>
      obtain ⟨hs, hx, hnext, ho⟩ := hn.cell?_eq_some_iff.mp (transition_eq_ok_iff.mp step)
      exact ⟨Or.inr (Or.inr ⟨_, hs, _, hx, hnext⟩), ho⟩
    | initial hi ho =>
      rw [hi, hn.initialState]
      exact ⟨Or.inr (Or.inl rfl), (hn.initialOutput output).mp ho⟩
    | aside ho =>
      obtain ⟨hs, -, -, ho⟩ := (hn.asideOutput state output).mp ho
      exact ⟨Or.inl hs, ho⟩
  · rintro ⟨hoccurs, ho⟩
    by_cases he : m.Enters state
    · obtain ⟨s, hs, x, hx, hnext⟩ := he
      have hcell := hn.cell?_eq_some_iff (t := ⟨state, output⟩) |>.mpr ⟨hs, hx, hnext, ho⟩
      rw [← hn.states] at hs
      rw [← hn.inputSymbols] at hx
      exact .entered hs hx (transition_eq_ok_iff.mpr hcell)
    · by_cases hi : state = m.initialState
      · refine .initial (hi.trans hn.initialState.symm) ((hn.initialOutput output).mpr ?_)
        rw [← hi, ho]
      · have hs : state ∈ m.states := by
          rcases hoccurs with hs | hi' | he'
          · exact hs
          · exact absurd hi' hi
          · exact absurd he' he
        exact .aside ((hn.asideOutput state output).mpr ⟨hs, hi, he, ho⟩)

end Mealy

namespace Moore

/-- **The conversion meets its definition.**  It succeeds if every declared state has a
transition on every declared symbol and the destination an output, and else fails with
what the first pair lacks that lacks something, states first.  The machine it makes is
the only one of its form.  That machine has an output of exactly the states that occur
and have one, always that output; a state with an output aside is neither initial nor
entered, so that each has one source.  (The output of an initial state that is entered
is on the transitions into it, and repeated as the initial output.) -/
theorem toMealy_meets_definition (m : Moore) :
    ((∃ n, m.toMealy = .ok n) ↔
      ∀ state ∈ m.states, ∀ symbol ∈ m.inputSymbols, m.Emits state symbol) ∧
    (∀ e, m.toMealy = .error e ↔ ∃ state symbol,
      FirstWith (fun p => ¬ m.Emits p.1 p.2) m.declaredPairs (state, symbol) ∧
        m.Lacks state symbol e) ∧
    (∀ n, m.toMealy = .ok n → ∀ n' : Mealy, n'.FormOf m ↔ n' = n) ∧
    (∀ n, m.toMealy = .ok n →
      (∀ state output, n.Gives state output ↔ m.Occurs state ∧ m.output state = .ok output) ∧
      ∀ state output, n.stateOutputs.get? state = some output →
        state ∈ n.states ∧ state ≠ n.initialState ∧ ¬ n.Enters state) := by
  refine ⟨?_, fun e => toMealy_eq_error_iff, ?_, ?_⟩
  · simp only [exists_toMealy_iff, emits_iff]
  · intro n h n'
    constructor
    · exact fun hn' => hn'.unique (formOf_toMealy h)
    · rintro rfl
      exact formOf_toMealy h
  · intro n h
    have hn := formOf_toMealy h
    refine ⟨fun state output => hn.gives_iff, fun state output ho => ?_⟩
    obtain ⟨hs, hi, he, -⟩ := (hn.asideOutput state output).mp ho
    rw [hn.states, hn.initialState, hn.enters_iff]
    exact ⟨hs, hi, he⟩

/-- The states are declared twice, a row leads to a state that is not declared, nothing
declared enters `D`, and an undeclared row does. -/
def repeated : Moore :=
  { states := ["A", "D", "A"]
    inputSymbols := ["0", "0"]
    transitions := .ofList [("A", .ofList [("0", "B")]), ("D", .ofList [("0", "B")]),
      ("U", .ofList [("0", "D")])]
    outputs := .ofList [("A", "x"), ("B", "y"), ("D", "w")]
    initialState := "A" }

theorem toMealy_meets_definition_repeated :
    ∃ n, repeated.toMealy = .ok n ∧ n.FormOf repeated ∧ n.stateOutputs.get? "D" = some "w" ∧
      "D" ∈ n.states ∧ "D" ≠ n.initialState ∧ ¬ n.Enters "D" := by
  obtain ⟨-, -, hform, hsources⟩ := toMealy_meets_definition repeated
  obtain ⟨-, haside⟩ := hsources _ rfl
  exact ⟨_, rfl, (hform _ rfl _).mpr rfl, rfl, haside "D" "w" rfl⟩

end Moore

end Transducers
