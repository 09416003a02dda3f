import Transducers.Moore

/-!
# From Moore to Mealy

Every transition emits the output of the state it enters.  The initial state
keeps its output as the initial output, and a declared state that nothing enters
keeps its output aside, so that nothing is lost on the way back.

* `Moore.transitionTo`: the Mealy transition for a state and a symbol;
* `transitionTo_eq_ok_iff`: when there is one, and which it is.
-/

namespace Transducers

namespace Moore

/-- The transition of the Mealy machine: the destination, and the output of it. -/
def transitionTo (m : Moore) (state symbol : String) : Except MachineError Transition := do
  let next ← m.transition state symbol
  let output ← m.output next
  return ⟨next, output⟩

/-- The row of a state with one cell for each of these symbols. -/
def mealyRow (m : Moore) (state : String) : List String → Except MachineError (List (String × Transition))
  | [] => .ok []
  | symbol :: rest => do
    let t ← m.transitionTo state symbol
    let cells ← m.mealyRow state rest
    return (symbol, t) :: cells

/-- One row for each of these states. -/
def mealyRows (m : Moore) : List String → Except MachineError (List (String × Row Transition))
  | [] => .ok []
  | state :: rest => do
    let row ← m.mealyRow state m.inputSymbols
    let rows ← m.mealyRows rest
    return (state, .ofList row) :: rows

/-- The states that some declared state enters on some declared symbol. -/
def entered (m : Moore) : List String :=
  m.declaredPairs.filterMap fun pair => m.transitions.cell? pair.1 pair.2

/-- The outputs of the declared states that are neither initial nor entered. -/
def asideOutputs (m : Moore) : List (String × String) :=
  let entered := m.entered
  (m.states.filter fun state => state != m.initialState && !entered.contains state).filterMap
    fun state => (m.outputs.get? state).map fun output => (state, output)

/-- The Mealy machine that answers every word as this machine does. -/
def toMealy (m : Moore) : Except MachineError Mealy := do
  let rows ← m.mealyRows m.states
  return {
    states := m.states
    inputSymbols := m.inputSymbols
    transitions := .ofList rows
    initialState := m.initialState
    initialOutput := m.outputs.get? m.initialState
    stateOutputs := .ofList m.asideOutputs }

theorem transitionTo_eq_ok_iff {m : Moore} {state symbol : String} {t : Transition} :
    m.transitionTo state symbol = .ok t ↔
      m.transitions.cell? state symbol = some t.next ∧ m.outputs.get? t.next = some t.output := by
  obtain ⟨next, output⟩ := t
  unfold transitionTo transition Moore.output
  cases hc : m.transitions.cell? state symbol with
  | none => simp [bind, Except.bind]
  | some n =>
    cases ho : m.outputs.get? n with
    | none =>
      simp only [bind, Except.bind, ho, Option.some.injEq]
      constructor
      · intro h; cases h
      · rintro ⟨rfl, h⟩; rw [ho] at h; cases h
    | some o =>
      simp only [bind, Except.bind, ho, pure, Except.pure, Except.ok.injEq, Transition.mk.injEq,
        Option.some.injEq]
      constructor
      · rintro ⟨rfl, rfl⟩; exact ⟨rfl, ho⟩
      · rintro ⟨rfl, h⟩; rw [ho] at h; cases h; exact ⟨rfl, rfl⟩

end Moore

end Transducers
