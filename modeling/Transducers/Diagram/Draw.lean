import Transducers.Machine
import Transducers.Diagram.Basic

/-!
# Diagrams of machines

The declared states are drawn before all arrows.  A Moore machine shows the output
of a state on a second line of its label, a Mealy machine shows it on the arrow
after the symbol.

* `Mealy.drawing`, `Moore.drawing`: the calls, in order;
* `Machine.diagram`: the diagram they make, under the name of the machine's kind.
-/

namespace Transducers

namespace Mealy

def diagramName : String := "mealy_machine"

def drawing (m : Mealy) : List Call :=
  [.rank .leftToRight] ++ m.states.map (fun s => .node s s) ++ [.initial m.initialState] ++
    m.transitions.cells.map fun (state, symbol, t) =>
      .edge state t.next (symbol ++ "/" ++ t.output)

def diagram (m : Mealy) : Diagram := .replay diagramName m.drawing

end Mealy

namespace Moore

def diagramName : String := "moore_machine"

/-- A state and its output on two lines, or the state alone if it has none. -/
def nodeLabel (m : Moore) (state : String) : String :=
  match m.outputs.get? state with
  | some output => state ++ "\n" ++ output
  | none => state

def drawing (m : Moore) : List Call :=
  [.rank .leftToRight] ++ m.states.map (fun s => .node s (m.nodeLabel s)) ++
    [.initial m.initialState] ++
    m.transitions.cells.map fun (state, symbol, next) => .edge state next symbol

def diagram (m : Moore) : Diagram := .replay diagramName m.drawing

end Moore

namespace Machine

def drawing : Machine → List Call
  | mealy m => m.drawing
  | moore m => m.drawing

def diagram : Machine → Diagram
  | mealy m => m.diagram
  | moore m => m.diagram

end Machine

end Transducers
