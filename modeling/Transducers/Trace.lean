import Transducers.Moore

/-!
# Runs of a machine over a word

A run reads the word from the initial state, one step a symbol, and stops at the
first lookup that fails.  `Mealy.stepsFrom` and `Moore.stepsFrom` run from any
state; `run` is the run from the initial one.

* `Mealy.stepsFrom_append`, `Moore.stepsFrom_append`: a run over two words goes
  on where the run over the first ended.
-/

namespace Transducers

/-- One symbol read: from which state, to which state, and the output there. -/
structure Step where
  state : String
  symbol : String
  next : String
  output : String
  deriving DecidableEq, Repr

structure Trace where
  initialState : String
  /-- The output before anything is read; only a Moore machine has one. -/
  initialOutput : Option String
  steps : List Step
  deriving DecidableEq, Repr

/-- Where these steps lead from a state. -/
def lastState (start : String) (steps : List Step) : String :=
  (steps.getLast?.map Step.next).getD start

namespace Trace

def outputs (t : Trace) : List String := t.steps.map Step.output

def finalState (t : Trace) : String := lastState t.initialState t.steps

end Trace

theorem lastState_cons (start : String) (step : Step) (steps : List Step) :
    lastState start (step :: steps) = lastState step.next steps := by
  cases steps with
  | nil => rfl
  | cons s ss => simp [lastState, List.getLast?_eq_some_getLast]

/-! ## Mealy machines -/

namespace Mealy

/-- The steps over a word from a given state. -/
def stepsFrom (m : Mealy) (state : String) : List String → Except MachineError (List Step)
  | [] => .ok []
  | symbol :: word => do
    let t ← m.transition state symbol
    let steps ← m.stepsFrom t.next word
    return ⟨state, symbol, t.next, t.output⟩ :: steps

def run (m : Mealy) (word : List String) : Except MachineError Trace := do
  let steps ← m.stepsFrom m.initialState word
  return ⟨m.initialState, none, steps⟩

theorem stepsFrom_append (m : Mealy) (state : String) (u v : List String) :
    m.stepsFrom state (u ++ v) = (do
      let first ← m.stepsFrom state u
      let second ← m.stepsFrom (lastState state first) v
      return first ++ second) := by
  induction u generalizing state with
  | nil =>
    change m.stepsFrom state v = (m.stepsFrom state v).bind Except.ok
    cases m.stepsFrom state v <;> rfl
  | cons x u ih =>
    simp only [List.cons_append, stepsFrom, ih]
    cases m.transition state x with
    | error e => rfl
    | ok t =>
      simp only [bind, Except.bind]
      cases m.stepsFrom t.next u with
      | error e => rfl
      | ok first =>
        simp only [pure, Except.pure, lastState_cons]
        cases m.stepsFrom (lastState t.next first) v <;> rfl

end Mealy

/-! ## Moore machines -/

namespace Moore

/-- The steps over a word from a given state. -/
def stepsFrom (m : Moore) (state : String) : List String → Except MachineError (List Step)
  | [] => .ok []
  | symbol :: word => do
    let next ← m.transition state symbol
    let output ← m.output next
    let steps ← m.stepsFrom next word
    return ⟨state, symbol, next, output⟩ :: steps

def run (m : Moore) (word : List String) : Except MachineError Trace := do
  let output ← m.output m.initialState
  let steps ← m.stepsFrom m.initialState word
  return ⟨m.initialState, some output, steps⟩

theorem stepsFrom_append (m : Moore) (state : String) (u v : List String) :
    m.stepsFrom state (u ++ v) = (do
      let first ← m.stepsFrom state u
      let second ← m.stepsFrom (lastState state first) v
      return first ++ second) := by
  induction u generalizing state with
  | nil =>
    change m.stepsFrom state v = (m.stepsFrom state v).bind Except.ok
    cases m.stepsFrom state v <;> rfl
  | cons x u ih =>
    simp only [List.cons_append, stepsFrom, ih]
    cases m.transition state x with
    | error e => rfl
    | ok next =>
      simp only [bind, Except.bind]
      cases m.output next with
      | error e => rfl
      | ok output =>
        simp only
        cases m.stepsFrom next u with
        | error e => rfl
        | ok first =>
          simp only [pure, Except.pure, lastState_cons]
          cases m.stepsFrom (lastState next first) v <;> rfl

end Moore

end Transducers
