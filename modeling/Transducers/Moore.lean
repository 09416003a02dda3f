import Transducers.Mealy

/-!
# Moore machines

The output belongs to the state.  As with Mealy machines, nothing forces the
table and the outputs to name the declared states only, or all of them.

* `transition_eq_ok_iff`, `output_eq_ok_iff`: lookups find what is in the table and
  the outputs;
* `cell?_withTransition`: a later transition for the same state and symbol
  replaces an earlier one.
-/

namespace Transducers

structure Moore where
  states : List String
  inputSymbols : List String
  transitions : Table String
  outputs : OrderedMap String String
  initialState : String
  deriving DecidableEq, Repr

namespace Moore

/-- The machine with one state, no output and no transitions. -/
def new (initialState : String) : Moore where
  states := [initialState]
  inputSymbols := []
  transitions := .empty
  outputs := .empty
  initialState := initialState

/-! ## Adding to a machine -/

/-- Set the output of a state, declaring the state if it is new. -/
def withOutput (m : Moore) (state output : String) : Moore :=
  { m with
    states := declare state m.states
    outputs := m.outputs.insert state output }

/-- Set a transition, declaring its states and its symbol if they are new. -/
def withTransition (m : Moore) (state symbol next : String) : Moore :=
  { m with
    states := declare next (declare state m.states)
    inputSymbols := declare symbol m.inputSymbols
    transitions := m.transitions.write state symbol next }

/-! ## Lookups -/

def transition (m : Moore) (state symbol : String) : Except MachineError String :=
  match m.transitions.cell? state symbol with
  | some next => .ok next
  | none => .error (.missingTransition state symbol)

def output (m : Moore) (state : String) : Except MachineError String :=
  match m.outputs.get? state with
  | some o => .ok o
  | none => .error (.missingOutput state)

def transitionCount (m : Moore) : Nat := m.transitions.count

/-- The declared states with the declared symbols, in order. -/
def declaredPairs (m : Moore) : List (String × String) := statePairs m.states m.inputSymbols

/-- Equality that does not look at the order inside maps. -/
def same (m n : Moore) : Bool :=
  m.states == n.states && m.inputSymbols == n.inputSymbols &&
    m.transitions.agrees (OrderedMap.agrees (· == ·)) n.transitions &&
    m.outputs.agrees (· == ·) n.outputs && m.initialState == n.initialState

theorem mem_declaredPairs {m : Moore} {state symbol : String} :
    (state, symbol) ∈ m.declaredPairs ↔ state ∈ m.states ∧ symbol ∈ m.inputSymbols :=
  mem_statePairs

theorem transition_eq_ok_iff {m : Moore} {state symbol next : String} :
    m.transition state symbol = .ok next ↔ m.transitions.cell? state symbol = some next := by
  unfold transition
  cases m.transitions.cell? state symbol <;> simp

theorem transition_eq_missing_iff {m : Moore} {state symbol : String} :
    m.transition state symbol = .error (.missingTransition state symbol) ↔
      m.transitions.cell? state symbol = none := by
  unfold transition
  cases m.transitions.cell? state symbol <;> simp

theorem output_eq_ok_iff {m : Moore} {state output : String} :
    m.output state = .ok output ↔ m.outputs.get? state = some output := by
  unfold Moore.output
  cases m.outputs.get? state <;> simp

theorem output_eq_error_iff {m : Moore} {state : String} :
    m.output state = .error (.missingOutput state) ↔ m.outputs.get? state = none := by
  unfold Moore.output
  cases m.outputs.get? state <;> simp

theorem cell?_withTransition (m : Moore) (s x n s' x' : String) :
    (m.withTransition s x n).transitions.cell? s' x' =
      if s = s' ∧ x = x' then some n else m.transitions.cell? s' x' :=
  Table.cell?_write ..

end Moore

end Transducers
