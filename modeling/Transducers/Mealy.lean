import Transducers.Table
import Transducers.Error

/-!
# Mealy machines

The output belongs to the transition.  A machine may name states and symbols in
its table that it does not declare, and leave declared ones out.

* `transition_eq_ok_iff`: a lookup finds what is in the table;
* `cell?_withTransition`: a later transition for the same state and symbol
  replaces an earlier one.
-/

namespace Transducers

/-- Add a name at the end of a list of names, unless it is there. -/
def declare (name : String) (names : List String) : List String :=
  if name ∈ names then names else names ++ [name]

@[simp] theorem mem_declare {a name : String} {names : List String} :
    a ∈ declare name names ↔ a ∈ names ∨ a = name := by
  unfold declare
  split
  · rename_i h
    constructor
    · exact Or.inl
    · rintro (ha | rfl)
      · exact ha
      · exact h
  · simp

theorem nodup_declare {name : String} {names : List String} (h : names.Nodup) :
    (declare name names).Nodup := by
  unfold declare
  split
  · exact h
  · rename_i hn
    rw [List.nodup_append]
    refine ⟨h, by simp, ?_⟩
    intro a ha b hb
    rw [List.mem_singleton.mp hb]
    exact fun hab => hn (hab ▸ ha)

/-- Every state with every symbol, all symbols of the first state first. -/
def statePairs (states symbols : List String) : List (String × String) :=
  states.flatMap fun state => symbols.map fun symbol => (state, symbol)

theorem mem_statePairs {states symbols : List String} {state symbol : String} :
    (state, symbol) ∈ statePairs states symbols ↔ state ∈ states ∧ symbol ∈ symbols := by
  simp [statePairs]

/-- The state a Mealy machine goes to, and what it emits on the way. -/
structure Transition where
  next : String
  output : String
  deriving DecidableEq, Repr

structure Mealy where
  states : List String
  inputSymbols : List String
  transitions : Table Transition
  initialState : String
  /-- The output that the initial state has as a Moore state. -/
  initialOutput : Option String
  /-- The outputs that other states have as Moore states if nothing enters them. -/
  stateOutputs : OrderedMap String String
  deriving DecidableEq, Repr

namespace Mealy

/-- The machine with one state and no transitions. -/
def new (initialState : String) : Mealy where
  states := [initialState]
  inputSymbols := []
  transitions := .empty
  initialState := initialState
  initialOutput := none
  stateOutputs := .empty

/-! ## Adding to a machine -/

def withInitialOutput (m : Mealy) (output : String) : Mealy :=
  { m with initialOutput := some output }

/-- Set the output of a state that nothing enters, declaring the state if it is new. -/
def withStateOutput (m : Mealy) (state output : String) : Mealy :=
  { m with
    states := declare state m.states
    stateOutputs := m.stateOutputs.insert state output }

/-- Set a transition, declaring its states and its symbol if they are new. -/
def withTransition (m : Mealy) (state symbol next output : String) : Mealy :=
  { m with
    states := declare next (declare state m.states)
    inputSymbols := declare symbol m.inputSymbols
    transitions := m.transitions.write state symbol ⟨next, output⟩ }

/-! ## Lookups -/

def transition (m : Mealy) (state symbol : String) : Except MachineError Transition :=
  match m.transitions.cell? state symbol with
  | some t => .ok t
  | none => .error (.missingTransition state symbol)

/-- The output for a state that no transition gives one: the initial output
comes first for the initial state, and only for it. -/
def outputHint (m : Mealy) (state : String) : Option String :=
  if state = m.initialState then
    m.initialOutput.orElse fun _ => m.stateOutputs.get? state
  else
    m.stateOutputs.get? state

def transitionCount (m : Mealy) : Nat := m.transitions.count

/-- The declared states with the declared symbols, in order. -/
def declaredPairs (m : Mealy) : List (String × String) := statePairs m.states m.inputSymbols

/-- Equality that does not look at the order inside maps. -/
def same (m n : Mealy) : Bool :=
  m.states == n.states && m.inputSymbols == n.inputSymbols &&
    m.transitions.agrees (OrderedMap.agrees (· == ·)) n.transitions &&
    m.initialState == n.initialState && m.initialOutput == n.initialOutput &&
    m.stateOutputs.agrees (· == ·) n.stateOutputs

theorem mem_declaredPairs {m : Mealy} {state symbol : String} :
    (state, symbol) ∈ m.declaredPairs ↔ state ∈ m.states ∧ symbol ∈ m.inputSymbols :=
  mem_statePairs

theorem transition_eq_ok_iff {m : Mealy} {state symbol : String} {t : Transition} :
    m.transition state symbol = .ok t ↔ m.transitions.cell? state symbol = some t := by
  unfold transition
  cases m.transitions.cell? state symbol <;> simp

theorem transition_of_none {m : Mealy} {state symbol : String}
    (h : m.transitions.cell? state symbol = none) :
    m.transition state symbol = .error (.missingTransition state symbol) := by
  simp [transition, h]

theorem transition_eq_missing_iff {m : Mealy} {state symbol : String} :
    m.transition state symbol = .error (.missingTransition state symbol) ↔
      m.transitions.cell? state symbol = none := by
  unfold transition
  cases m.transitions.cell? state symbol <;> simp

theorem cell?_withTransition (m : Mealy) (s x n o s' x' : String) :
    (m.withTransition s x n o).transitions.cell? s' x' =
      if s = s' ∧ x = x' then some ⟨n, o⟩ else m.transitions.cell? s' x' :=
  Table.cell?_write ..

end Mealy

end Transducers
