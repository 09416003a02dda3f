import Transducers.Diagram.Basic
import Transducers.Trace.Json

/-!
# Diagrams as JSON

An export holds all that a diagram shows, arrows by the ids of their ends.

* `Diagram.exported`: the export of a diagram;
* `Export.calls`: a drawing that makes the diagram again;
* `Export.text`: an export with one value a line;
* `readExport`: the export that a text describes.
-/

namespace Transducers

open Json

structure Export where
  name : String
  rank : Direction
  initial : Option String
  nodes : List Node
  edges : List Edge
  deriving DecidableEq, Repr

def Diagram.exported (d : Diagram) : Export := ⟨d.name, d.rank, d.initial, d.nodes, d.edges⟩

/-- A drawing of all that the export holds. -/
def Export.calls (x : Export) : List Call :=
  [.rank x.rank] ++ x.nodes.map (fun n => .node n.id n.label) ++
    x.edges.map (fun e => .edge e.source e.target e.label) ++
    x.initial.toList.map .initial

/-! ## Printing -/

namespace Direction

def name : Direction → String
  | topToBottom => "TopToBottom"
  | leftToRight => "LeftToRight"

def ofName? (s : String) : Option Direction :=
  if s = "TopToBottom" then some topToBottom
  else if s = "LeftToRight" then some leftToRight
  else none

def names : List String := ["TopToBottom", "LeftToRight"]

theorem ofName?_name (d : Direction) : ofName? d.name = some d := by
  cases d <;> decide

end Direction

def Node.json (n : Node) : Value := .object [("id", .text n.id), ("label", .text n.label)]

def Edge.json (e : Edge) : Value :=
  .object [("source", .text e.source), ("target", .text e.target), ("label", .text e.label)]

def Export.json (x : Export) : Value :=
  .object [("name", .text x.name),
    ("rank_dir", .text x.rank.name),
    ("initial", optionalJson x.initial),
    ("nodes", .list (x.nodes.map Node.json)),
    ("edges", .list (x.edges.map Edge.json))]

def Export.text (x : Export) : String := x.json.pretty

/-! ## Reading -/

/-- What is known of a node while it is read. -/
structure NodeDraft where
  id : Option String := none
  label : Option String := none

def Node.record : Record NodeDraft Node where
  name := "NodeRepr"
  fields := [
    .of "id" readText NodeDraft.id fun d x => { d with id := some x },
    .of "label" readText NodeDraft.label fun d x => { d with label := some x }]
  start := {}
  finish d := do
    return { id := ← require "id" d.id, label := ← require "label" d.label }

/-- What is known of an arrow while it is read. -/
structure EdgeDraft where
  source : Option String := none
  target : Option String := none
  label : Option String := none

def Edge.record : Record EdgeDraft Edge where
  name := "EdgeRepr"
  fields := [
    .of "source" readText EdgeDraft.source fun d x => { d with source := some x },
    .of "target" readText EdgeDraft.target fun d x => { d with target := some x },
    .of "label" readText EdgeDraft.label fun d x => { d with label := some x }]
  start := {}
  finish d := do
    return {
      source := ← require "source" d.source
      target := ← require "target" d.target
      label := ← require "label" d.label }

/-- The name of a direction, as the next string. -/
def readDirectionName : Reader Direction := fun s => do
  let (name, r) ← readQuoted s
  match Direction.ofName? name with
  | some d => return (d, r)
  | none => throw (.mismatch (.unknownVariant name Direction.names))

/-- A null, which is all that can be said of a direction beside its name. -/
def readUnit : Reader Unit := fun s => do
  match ← readHead s with
  | (.null, r) => return ((), r)
  | (h, _) => throw (.mismatch (.wrongType h "unit"))

/-- A direction: its name, or an object with the name before a null. -/
def readDirection : Reader Direction := fun s =>
  match skipBlanks s with
  | ⟨[], _⟩ => .error .truncated
  | ⟨c :: r, h⟩ =>
    if c = '"' then readDirectionName s
    else if c = '\x7b' then do
      let (d, ⟨t, ht⟩) ← readDirectionName r
      let (_, ⟨u, hu⟩) ← readColon t
      let (_, ⟨v, hv⟩) ← readUnit u
      let (_, ⟨w, hw⟩) ← readClose '\x7d' v
      return (d, ⟨w, by simp only [List.length_cons] at h; omega⟩)
    else .error .malformed

/-- What is known of an export while it is read. -/
structure ExportDraft where
  name : Option String := none
  rank : Option Direction := none
  initial : Option (Option String) := none
  nodes : Option (List Node) := none
  edges : Option (List Edge) := none

def Export.record : Record ExportDraft Export where
  name := "DiagramRepr"
  fields := [
    .of "name" readText ExportDraft.name fun d x => { d with name := some x },
    .of "rank_dir" readDirection ExportDraft.rank fun d x => { d with rank := some x },
    .of "initial" readOptionalText ExportDraft.initial fun d x => { d with initial := some x },
    .of "nodes" (readList Node.record.read) ExportDraft.nodes fun d x => { d with nodes := some x },
    .of "edges" (readList Edge.record.read) ExportDraft.edges fun d x => { d with edges := some x }]
  start := {}
  finish d := do
    return {
      name := ← require "name" d.name
      rank := ← require "rank_dir" d.rank
      initial := d.initial.getD none
      nodes := ← require "nodes" d.nodes
      edges := ← require "edges" d.edges }

/-- The export that a text describes. -/
def readExport (source : String) : Except Fault Export := readAll Export.record.read source

end Transducers
