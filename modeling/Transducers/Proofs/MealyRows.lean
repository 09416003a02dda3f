import Transducers.Proofs.SplitPairs
import Transducers.ToMealy
import Transducers.Trace

/-!
# The Mealy machine that a conversion makes

A row is a lookup made for each symbol in turn, and the table a row made for each
state: both tabulate a function that may fail, and both are read back the same way.

* `exists_tabulate_iff`, `get?_ofList_tabulate`: when a table is made, and what is in it;
* `tabulate_eq_error_iff`: of which key the failure is if it is not;
* `exists_toMealy_iff`: a conversion succeeds if no transition and no output of a
  destination is missing;
* `cell?_toMealy`, `get?_stateOutputs_toMealy`: the transitions of the result, and the
  outputs that it keeps aside;
* `stepsFrom_of_toMealy`: each run of the result is a run of the Moore machine.
-/

namespace Transducers

/-! ## Tables of a function -/

section Tabulate

variable {κ α ε : Type}

/-- Each key with the value of the function there, unless the function fails. -/
def tabulate (f : κ → Except ε α) : List κ → Except ε (List (κ × α))
  | [] => .ok []
  | k :: ks => do
    let v ← f k
    let es ← tabulate f ks
    return (k, v) :: es

theorem tabulate_cons_eq_ok_iff {f : κ → Except ε α} {k : κ} {ks : List κ} {es : List (κ × α)} :
    tabulate f (k :: ks) = .ok es ↔
      ∃ v rest, f k = .ok v ∧ tabulate f ks = .ok rest ∧ es = (k, v) :: rest := by
  simp only [tabulate]
  cases f k with
  | error e => simp [bind, Except.bind]
  | ok v =>
    cases tabulate f ks with
    | error e => simp [bind, Except.bind]
    | ok rest => simp [bind, Except.bind, pure, Except.pure, eq_comm]

theorem exists_tabulate_iff {f : κ → Except ε α} {ks : List κ} :
    (∃ es, tabulate f ks = .ok es) ↔ ∀ k ∈ ks, ∃ v, f k = .ok v := by
  induction ks with
  | nil => simp [tabulate]
  | cons k ks ih =>
    simp only [tabulate_cons_eq_ok_iff, List.mem_cons, forall_eq_or_imp, ← ih]
    constructor
    · rintro ⟨es, v, rest, hv, hrest, -⟩
      exact ⟨⟨v, hv⟩, rest, hrest⟩
    · rintro ⟨⟨v, hv⟩, rest, hrest⟩
      exact ⟨_, v, rest, hv, hrest, rfl⟩

theorem mem_tabulate {f : κ → Except ε α} {ks : List κ} {es : List (κ × α)}
    (h : tabulate f ks = .ok es) {k : κ} {v : α} : (k, v) ∈ es ↔ k ∈ ks ∧ f k = .ok v := by
  induction ks generalizing es with
  | nil =>
    cases h
    simp
  | cons l ks ih =>
    obtain ⟨w, rest, hw, hrest, rfl⟩ := tabulate_cons_eq_ok_iff.mp h
    rw [List.mem_cons, List.mem_cons, ih hrest, Prod.mk.injEq]
    constructor
    · rintro (⟨rfl, rfl⟩ | ⟨hk, hv⟩)
      · exact ⟨Or.inl rfl, hw⟩
      · exact ⟨Or.inr hk, hv⟩
    · rintro ⟨rfl | hk, hv⟩
      · rw [hw, Except.ok.injEq] at hv
        exact Or.inl ⟨rfl, hv.symm⟩
      · exact Or.inr ⟨hk, hv⟩

/-- A key that is listed twice is written twice, with one value. -/
theorem get?_ofList_tabulate [DecidableEq κ] {f : κ → Except ε α} {ks : List κ}
    {es : List (κ × α)} (h : tabulate f ks = .ok es) {k : κ} {v : α} :
    (OrderedMap.ofList es).get? k = some v ↔ k ∈ ks ∧ f k = .ok v := by
  rw [OrderedMap.get?_ofList, Entries.find?_eq_some_iff, List.mem_reverse, mem_tabulate h]
  intro l u w hu hw
  obtain ⟨-, hu⟩ := (mem_tabulate h).mp (List.mem_reverse.mp hu)
  obtain ⟨-, hw⟩ := (mem_tabulate h).mp (List.mem_reverse.mp hw)
  rw [hu, Except.ok.injEq] at hw
  exact hw

theorem map_fst_of_tabulate {f : κ → Except ε α} {ks : List κ} {es : List (κ × α)}
    (h : tabulate f ks = .ok es) : es.map Prod.fst = ks := by
  induction ks generalizing es with
  | nil =>
    cases h
    rfl
  | cons k ks ih =>
    obtain ⟨v, rest, -, hrest, rfl⟩ := tabulate_cons_eq_ok_iff.mp h
    rw [List.map_cons, ih hrest]

/-! A table that is not made. -/

theorem tabulate_cons_eq_error_iff {f : κ → Except ε α} {k : κ} {ks : List κ} {e : ε} :
    tabulate f (k :: ks) = .error e ↔
      f k = .error e ∨ (∃ v, f k = .ok v) ∧ tabulate f ks = .error e := by
  simp only [tabulate]
  cases f k with
  | error e => simp [bind, Except.bind]
  | ok v => cases tabulate f ks <;> simp [bind, Except.bind, pure, Except.pure]

theorem tabulate_append_eq_error_iff {f : κ → Except ε α} {ks ls : List κ} {e : ε} :
    tabulate f (ks ++ ls) = .error e ↔
      tabulate f ks = .error e ∨ (∃ es, tabulate f ks = .ok es) ∧ tabulate f ls = .error e := by
  induction ks with
  | nil => simp [tabulate]
  | cons k ks ih =>
    rw [List.cons_append, tabulate_cons_eq_error_iff, tabulate_cons_eq_error_iff, ih,
      exists_tabulate_iff, exists_tabulate_iff, List.forall_mem_cons]
    tauto

theorem tabulate_map_eq_error_iff {ι : Type} {f : κ → Except ε α} {g : ι → κ} {is : List ι}
    {e : ε} : tabulate f (is.map g) = .error e ↔ tabulate (fun i => f (g i)) is = .error e := by
  induction is with
  | nil => simp [tabulate]
  | cons i is ih =>
    rw [List.map_cons, tabulate_cons_eq_error_iff, tabulate_cons_eq_error_iff, ih]

/-- The failure is that of the first key at which the function fails. -/
theorem tabulate_eq_error_iff {f : κ → Except ε α} {ks : List κ} {e : ε} :
    tabulate f ks = .error e ↔
      ∃ k, FirstWith (fun k => ∀ v, f k ≠ .ok v) ks k ∧ f k = .error e := by
  induction ks with
  | nil =>
    constructor
    · intro h
      cases h
    · rintro ⟨k, hk, -⟩
      cases hk.mem
  | cons l ks ih =>
    rw [tabulate_cons_eq_error_iff, ih]
    constructor
    · rintro (hl | ⟨hl, k, hk, he⟩)
      · have hfails : ∀ v, f l ≠ .ok v := by simp [hl]
        exact ⟨l, firstWith_cons_iff.mpr (Or.inl ⟨rfl, hfails⟩), hl⟩
      · exact ⟨k, firstWith_cons_iff.mpr (Or.inr ⟨by simpa using hl, hk⟩), he⟩
    · rintro ⟨k, hk, he⟩
      rcases firstWith_cons_iff.mp hk with ⟨rfl, -⟩ | ⟨hl, hk⟩
      · exact Or.inl he
      · exact Or.inr ⟨by simpa using hl, k, hk, he⟩

end Tabulate

namespace Moore

/-! ## Rows -/

/-- The row of a state, as a map. -/
def rowOf (m : Moore) (state : String) : Except MachineError (Row Transition) :=
  (m.mealyRow state m.inputSymbols).map .ofList

theorem mealyRow_eq_tabulate (m : Moore) (state : String) (symbols : List String) :
    m.mealyRow state symbols = tabulate (m.transitionTo state) symbols := by
  induction symbols with
  | nil => rfl
  | cons x symbols ih => rw [mealyRow, tabulate, ih]

theorem mealyRows_eq_tabulate (m : Moore) (states : List String) :
    m.mealyRows states = tabulate m.rowOf states := by
  induction states with
  | nil => rfl
  | cons s states ih =>
    rw [mealyRows, tabulate, ih, rowOf]
    cases m.mealyRow s m.inputSymbols <;> rfl

theorem rowOf_eq_ok_iff {m : Moore} {state : String} {row : Row Transition} :
    m.rowOf state = .ok row ↔
      ∃ cells, tabulate (m.transitionTo state) m.inputSymbols = .ok cells ∧
        .ofList cells = row := by
  rw [rowOf, mealyRow_eq_tabulate]
  cases tabulate (m.transitionTo state) m.inputSymbols <;> simp [Except.map]

theorem exists_rowOf_iff {m : Moore} {state : String} : (∃ row, m.rowOf state = .ok row) ↔
    ∀ symbol ∈ m.inputSymbols, ∃ t, m.transitionTo state symbol = .ok t := by
  simp only [rowOf_eq_ok_iff]
  rw [← exists_tabulate_iff]
  constructor
  · rintro ⟨_, cells, hc, -⟩
    exact ⟨cells, hc⟩
  · rintro ⟨cells, hc⟩
    exact ⟨_, cells, hc, rfl⟩

/-- A lookup in rows that were made finds the transition of a listed state and symbol. -/
theorem cell?_mealyRows {m : Moore} {states : List String}
    {rows : List (String × Row Transition)} (h : m.mealyRows states = .ok rows)
    {state symbol : String} {t : Transition} :
    Table.cell? (.ofList rows) state symbol = some t ↔
      state ∈ states ∧ symbol ∈ m.inputSymbols ∧ m.transitionTo state symbol = .ok t := by
  rw [mealyRows_eq_tabulate] at h
  simp only [Table.cell?, Option.bind_eq_some_iff, get?_ofList_tabulate h, rowOf_eq_ok_iff]
  constructor
  · rintro ⟨row, ⟨hs, cells, hc, rfl⟩, ht⟩
    exact ⟨hs, (get?_ofList_tabulate hc).mp ht⟩
  · rintro ⟨hs, hxt⟩
    obtain ⟨row, hrow⟩ := exists_tabulate_iff.mp ⟨rows, h⟩ state hs
    obtain ⟨cells, hc, rfl⟩ := rowOf_eq_ok_iff.mp hrow
    exact ⟨_, ⟨hs, cells, hc, rfl⟩, (get?_ofList_tabulate hc).mpr hxt⟩

/-! ## The machine -/

theorem mem_entered {m : Moore} {next : String} :
    next ∈ m.entered ↔ ∃ state ∈ m.states, ∃ symbol ∈ m.inputSymbols,
      m.transitions.cell? state symbol = some next := by
  unfold entered
  rw [List.mem_filterMap]
  constructor
  · rintro ⟨⟨s, x⟩, hp, hn⟩
    obtain ⟨hs, hx⟩ := mem_declaredPairs.mp hp
    exact ⟨s, hs, x, hx, hn⟩
  · rintro ⟨s, hs, x, hx, hn⟩
    exact ⟨(s, x), mem_declaredPairs.mpr ⟨hs, hx⟩, hn⟩

theorem mem_asideOutputs {m : Moore} {state output : String} :
    (state, output) ∈ m.asideOutputs ↔ state ∈ m.states ∧ state ≠ m.initialState ∧
      state ∉ m.entered ∧ m.outputs.get? state = some output := by
  simp only [asideOutputs, List.mem_filterMap, List.mem_filter, Option.map_eq_some_iff,
    Prod.mk.injEq]
  constructor
  · rintro ⟨s, ⟨hs, hn⟩, o, ho, rfl, rfl⟩
    simp only [Bool.and_eq_true, bne_iff_ne, Bool.not_eq_true', List.contains_iff_mem,
      ← Bool.not_eq_true] at hn
    exact ⟨hs, hn.1, hn.2, ho⟩
  · rintro ⟨hs, hi, he, ho⟩
    exact ⟨state, ⟨hs, by simpa using ⟨hi, he⟩⟩, output, ho, rfl, rfl⟩

theorem exists_toMealy_iff {m : Moore} : (∃ n, m.toMealy = .ok n) ↔
    ∀ state ∈ m.states, ∀ symbol ∈ m.inputSymbols, ∃ t, m.transitionTo state symbol = .ok t := by
  have hrows : (∃ n, m.toMealy = .ok n) ↔ ∃ rows, m.mealyRows m.states = .ok rows := by
    unfold toMealy
    cases m.mealyRows m.states <;> simp [bind, Except.bind, pure, Except.pure]
  rw [hrows, mealyRows_eq_tabulate, exists_tabulate_iff]
  exact forall₂_congr fun state _ => exists_rowOf_iff

section Converted

variable {m : Moore} {n : Mealy} (h : m.toMealy = .ok n)
include h

theorem toMealy_eq_ok : ∃ rows, m.mealyRows m.states = .ok rows ∧
    n = { states := m.states, inputSymbols := m.inputSymbols, transitions := .ofList rows,
          initialState := m.initialState, initialOutput := m.outputs.get? m.initialState,
          stateOutputs := .ofList m.asideOutputs } := by
  unfold toMealy at h
  cases hrows : m.mealyRows m.states with
  | error e =>
    rw [hrows] at h
    cases h
  | ok rows =>
    rw [hrows] at h
    cases h
    exact ⟨rows, rfl, rfl⟩

/-- **The transitions of the result** are those of declared states on declared
symbols, each with the output of its destination. -/
theorem cell?_toMealy {state symbol : String} {t : Transition} :
    n.transitions.cell? state symbol = some t ↔ state ∈ m.states ∧ symbol ∈ m.inputSymbols ∧
      m.transitions.cell? state symbol = some t.next ∧
      m.outputs.get? t.next = some t.output := by
  obtain ⟨rows, hrows, rfl⟩ := toMealy_eq_ok h
  rw [cell?_mealyRows hrows, transitionTo_eq_ok_iff]

theorem get?_stateOutputs_toMealy {state output : String} :
    n.stateOutputs.get? state = some output ↔ state ∈ m.states ∧ state ≠ m.initialState ∧
      state ∉ m.entered ∧ m.outputs.get? state = some output := by
  obtain ⟨rows, -, rfl⟩ := toMealy_eq_ok h
  simp only
  rw [OrderedMap.get?_ofList, Entries.find?_eq_some_iff, List.mem_reverse, mem_asideOutputs]
  intro s o o' ho ho'
  obtain ⟨-, -, -, ho⟩ := mem_asideOutputs.mp (List.mem_reverse.mp ho)
  obtain ⟨-, -, -, ho'⟩ := mem_asideOutputs.mp (List.mem_reverse.mp ho')
  rw [ho, Option.some.injEq] at ho'
  exact ho'

theorem states_toMealy : n.states = m.states := by
  obtain ⟨rows, -, rfl⟩ := toMealy_eq_ok h
  rfl

theorem inputSymbols_toMealy : n.inputSymbols = m.inputSymbols := by
  obtain ⟨rows, -, rfl⟩ := toMealy_eq_ok h
  rfl

theorem initialState_toMealy : n.initialState = m.initialState := by
  obtain ⟨rows, -, rfl⟩ := toMealy_eq_ok h
  rfl

theorem initialOutput_toMealy : n.initialOutput = m.outputs.get? m.initialState := by
  obtain ⟨rows, -, rfl⟩ := toMealy_eq_ok h
  rfl

/-- A state that is entered has an output, or the conversion would have failed. -/
theorem exists_output_of_entered {state : String} (hs : state ∈ m.entered) :
    ∃ output, m.outputs.get? state = some output := by
  obtain ⟨s, hs, x, hx, hn⟩ := mem_entered.mp hs
  obtain ⟨t, ht⟩ := exists_toMealy_iff.mp ⟨n, h⟩ s hs x hx
  obtain ⟨hnext, ho⟩ := transitionTo_eq_ok_iff.mp ht
  rw [hn, Option.some.injEq] at hnext
  exact ⟨t.output, hnext ▸ ho⟩

/-! ## Runs -/

/-- The Moore machine takes every step that the result takes, with the same output. -/
theorem stepsFrom_of_toMealy {state : String} {word : List String} {steps : List Step}
    (hrun : n.stepsFrom state word = .ok steps) : m.stepsFrom state word = .ok steps := by
  induction word generalizing state steps with
  | nil => exact hrun
  | cons x word ih =>
    cases ht : n.transitions.cell? state x with
    | none => simp [Mealy.stepsFrom, Mealy.transition_of_none ht, bind, Except.bind] at hrun
    | some t =>
      simp only [Mealy.stepsFrom, Mealy.transition_eq_ok_iff.mpr ht, bind, Except.bind] at hrun
      cases hw : n.stepsFrom t.next word with
      | error e =>
        rw [hw] at hrun
        cases hrun
      | ok rest =>
        rw [hw] at hrun
        cases hrun
        obtain ⟨-, -, hn, ho⟩ := (cell?_toMealy h).mp ht
        simp only [stepsFrom, transition_eq_ok_iff.mpr hn, output_eq_ok_iff.mpr ho, ih hw, bind,
          Except.bind]
        rfl

end Converted

end Moore

end Transducers
