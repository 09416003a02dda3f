import Transducers.Diagram.Basic

/-!
# Diagrams in the DOT language

One statement a line: nodes before arrows, each in the order of the diagram.  An
arrow from a point shows the initial node.

* `Diagram.dotLines`: the lines;
* `Diagram.dot`: the text, every line of it ended.
-/

namespace Transducers

/-- One character inside a quoted id of the DOT language. -/
def dotEscape (c : Char) : List Char :=
  match c with
  | '\\' => ['\\', '\\']
  | '"' => ['\\', '"']
  | '\n' => ['\\', 'n']
  | _ => [c]

/-- A quoted id of the DOT language. -/
def dotQuoted (s : String) : String := "\"" ++ .ofList (s.toList.flatMap dotEscape) ++ "\""

/-- Lines as a text, each with a line feed at its end. -/
def unlines (lines : List String) : String := .join (lines.map (· ++ "\n"))

namespace Diagram

/-- The point from which the arrow to the initial node comes. -/
def startMarker : String := "__start__"

def dotNode (n : Node) : String := s!"    {dotQuoted n.id} [label={dotQuoted n.label}];"

def dotEdge (e : Edge) : String :=
  s!"    {dotQuoted e.source} -> {dotQuoted e.target} [label={dotQuoted e.label}];"

def dotLines (d : Diagram) : List String :=
  ["digraph " ++ dotQuoted d.name ++ " \x7b", "    rankdir=" ++ d.rank.letters ++ ";"] ++
    d.initial.toList.map (fun _ => s!"    {dotQuoted startMarker} [shape=point, label=\"\"];") ++
    d.nodes.map dotNode ++
    d.initial.toList.map (fun id => s!"    {dotQuoted startMarker} -> {dotQuoted id};") ++
    d.edges.map dotEdge ++
    ["\x7d"]

def dot (d : Diagram) : String := unlines d.dotLines

end Diagram

end Transducers
