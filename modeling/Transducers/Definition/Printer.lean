import Transducers.Machine
import Transducers.Json.Printer

/-!
# Machine definitions as JSON

An object that names the kind of the machine first and then its parts.  A Mealy
machine leaves out an initial output that is not set and an empty map of state
outputs.
-/

namespace Transducers

open Json (Value)

/-- The kind of a machine, as definitions name it. -/
inductive MachineKind where
  | mealy
  | moore
  deriving DecidableEq, Repr

namespace MachineKind

def name : MachineKind → String
  | mealy => "mealy"
  | moore => "moore"

def ofName? (s : String) : Option MachineKind :=
  if s = "mealy" then some mealy else if s = "moore" then some moore else none

def names : List String := ["mealy", "moore"]

theorem ofName?_name (k : MachineKind) : ofName? k.name = some k := by
  cases k <;> decide

end MachineKind

def Machine.kind : Machine → MachineKind
  | mealy _ => .mealy
  | moore _ => .moore

/-! ## Parts -/

def textsJson (names : List String) : Value := .list (names.map .text)

def mapJson {α : Type} (item : α → Value) (m : OrderedMap String α) : Value :=
  .object (m.entries.map fun e => (e.1, item e.2))

def tableJson {α : Type} (cell : α → Value) (t : Table α) : Value := mapJson (mapJson cell) t

def Transition.json (t : Transition) : Value :=
  .object [("next", .text t.next), ("output", .text t.output)]

/-! ## Machines -/

/-- The members of a Mealy machine after its kind. -/
def Mealy.members (m : Mealy) : List (String × Value) :=
  [("states", textsJson m.states),
    ("input_symbols", textsJson m.inputSymbols),
    ("transitions", tableJson Transition.json m.transitions),
    ("initial_state", .text m.initialState)] ++
  (m.initialOutput.map fun o => ("initial_output", Value.text o)).toList ++
  if m.stateOutputs.isEmpty then [] else [("state_outputs", mapJson .text m.stateOutputs)]

/-- The members of a Moore machine after its kind. -/
def Moore.members (m : Moore) : List (String × Value) :=
  [("states", textsJson m.states),
    ("input_symbols", textsJson m.inputSymbols),
    ("transitions", tableJson .text m.transitions),
    ("outputs", mapJson .text m.outputs),
    ("initial_state", .text m.initialState)]

def Machine.members : Machine → List (String × Value)
  | mealy m => m.members
  | moore m => m.members

def Machine.json (m : Machine) : Value := .object (("kind", .text m.kind.name) :: m.members)

/-- The definition of a machine on one line. -/
def Machine.definition (m : Machine) : String := m.json.compact

end Transducers
