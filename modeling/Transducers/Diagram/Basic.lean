import Transducers.OrderedMap
import Transducers.Diagram.Sink
import Transducers.Text.Lines

/-!
# Diagrams

A diagram is a graph: vertices in a row, arrows between their places, and a table that
finds the place of an id.  Vertices are only added, at the end of the row, so a place
never changes.  The initial vertex carries a flag, and the diagram knows its place.

* `Diagram.sink`: diagrams as something to draw into;
* `Diagram.replay`: the diagram that a drawing makes;
* `Diagram.nodes`, `Diagram.edges`, `Diagram.initial`: what a diagram shows, by ids.
-/

namespace Transducers

/-- A state of a machine in a diagram. -/
structure Vertex where
  id : String
  label : String
  /-- Whether it is the initial state. -/
  initial : Bool
  deriving DecidableEq, Repr

/-- The label on one line. -/
def Vertex.inlineLabel (v : Vertex) : String := inlined v.label

/-- An arrow between two places. -/
structure Arrow where
  source : Nat
  target : Nat
  label : String
  deriving DecidableEq, Repr

/-- A vertex as it is shown. -/
structure Node where
  id : String
  label : String
  deriving DecidableEq, Repr

/-- An arrow as it is shown, its ends given by their ids. -/
structure Edge where
  source : String
  target : String
  label : String
  deriving DecidableEq, Repr

structure Diagram where
  name : String
  vertices : List Vertex
  arrows : List Arrow
  /-- The place of each id among the vertices. -/
  places : OrderedMap String Nat
  rank : Direction
  /-- The place of the initial vertex. -/
  start : Option Nat
  deriving DecidableEq, Repr

namespace Diagram

/-! ## Making diagrams -/

/-- The diagram with nothing in it. -/
def empty (name : String) : Diagram where
  name := name
  vertices := []
  arrows := []
  places := .empty
  rank := .topToBottom
  start := none

/-- Add a vertex at the end of the row. -/
def push (d : Diagram) (id label : String) : Diagram :=
  { d with
    vertices := d.vertices ++ [⟨id, label, false⟩]
    places := d.places.insert id d.vertices.length }

def relabel (d : Diagram) (place : Nat) (label : String) : Diagram :=
  { d with vertices := d.vertices.modify place fun v => { v with label := label } }

/-- Set or take away the flag of a vertex. -/
def flag (d : Diagram) (place : Nat) (initial : Bool) : Diagram :=
  { d with vertices := d.vertices.modify place fun v => { v with initial := initial } }

/-- A node with its label; a node that is there gets a new label. -/
def addNode (d : Diagram) (id label : String) : Diagram :=
  match d.places.get? id with
  | some place => d.relabel place label
  | none => d.push id label

/-- A node labelled with its id, unless it is there; and its place. -/
def ensureNode (d : Diagram) (id : String) : Diagram × Nat :=
  match d.places.get? id with
  | some place => (d, place)
  | none => (d.push id id, d.vertices.length)

/-- An arrow between two nodes, the source made first if both are new. -/
def addEdge (d : Diagram) (source target label : String) : Diagram :=
  let (d, i) := d.ensureNode source
  let (d, j) := d.ensureNode target
  { d with arrows := d.arrows ++ [⟨i, j, label⟩] }

def setRank (d : Diagram) (rank : Direction) : Diagram := { d with rank := rank }

/-- The diagram without the flag of its initial node. -/
def unflagged (d : Diagram) : Diagram :=
  match d.start with
  | some place => d.flag place false
  | none => d

/-- Mark a node as the initial one, in the place of any other. -/
def markInitial (d : Diagram) (id : String) : Diagram :=
  let (d, place) := d.unflagged.ensureNode id
  { d.flag place true with start := some place }

/-- Diagrams as something to draw into. -/
def sink : Sink Diagram := ⟨addNode, addEdge, setRank, markInitial⟩

/-- The diagram that a drawing makes. -/
def replay (name : String) (calls : List Call) : Diagram := sink.run (empty name) calls

/-! What calls leave alone. -/

@[simp] theorem name_addNode (d : Diagram) (id label : String) :
    (d.addNode id label).name = d.name := by
  unfold addNode
  split <;> rfl

@[simp] theorem rank_addNode (d : Diagram) (id label : String) :
    (d.addNode id label).rank = d.rank := by
  unfold addNode
  split <;> rfl

@[simp] theorem start_addNode (d : Diagram) (id label : String) :
    (d.addNode id label).start = d.start := by
  unfold addNode
  split <;> rfl

@[simp] theorem name_ensureNode (d : Diagram) (id : String) :
    (d.ensureNode id).1.name = d.name := by
  unfold ensureNode
  split <;> rfl

@[simp] theorem rank_ensureNode (d : Diagram) (id : String) :
    (d.ensureNode id).1.rank = d.rank := by
  unfold ensureNode
  split <;> rfl

@[simp] theorem start_ensureNode (d : Diagram) (id : String) :
    (d.ensureNode id).1.start = d.start := by
  unfold ensureNode
  split <;> rfl

@[simp] theorem name_unflagged (d : Diagram) : d.unflagged.name = d.name := by
  unfold unflagged
  split <;> rfl

@[simp] theorem rank_unflagged (d : Diagram) : d.unflagged.rank = d.rank := by
  unfold unflagged
  split <;> rfl

@[simp] theorem name_play (d : Diagram) (c : Call) : (sink.play d c).name = d.name := by
  cases c <;> simp [sink, Sink.play, addEdge, setRank, markInitial, flag]

/-! ## Looking at diagrams -/

def ids (d : Diagram) : List String := d.vertices.map Vertex.id

def nodes (d : Diagram) : List Node := d.vertices.map fun v => ⟨v.id, v.label⟩

def nodeCount (d : Diagram) : Nat := d.vertices.length

def edgeCount (d : Diagram) : Nat := d.arrows.length

/-- The place of a node among the nodes. -/
def index? (d : Diagram) (id : String) : Option Nat := d.places.get? id

def vertex? (d : Diagram) (id : String) : Option Vertex :=
  (d.index? id).bind fun place => d.vertices[place]?

def label? (d : Diagram) (id : String) : Option String := (d.vertex? id).map Vertex.label

def isInitial (d : Diagram) (id : String) : Bool := ((d.vertex? id).map Vertex.initial).getD false

/-- The id of the initial node. -/
def initial (d : Diagram) : Option String :=
  d.start.bind fun place => (d.vertices[place]?).map Vertex.id

/-- The id at a place; every end of an arrow is the place of a vertex. -/
def idAt (d : Diagram) (place : Nat) : String := ((d.vertices[place]?).map Vertex.id).getD ""

/-- The arrow with the ids of its ends. -/
def edge (d : Diagram) (a : Arrow) : Edge := ⟨d.idAt a.source, d.idAt a.target, a.label⟩

def edges (d : Diagram) : List Edge := d.arrows.map d.edge

/-- The arrows that leave a place, in the order in which they were drawn. -/
def arrowsFrom (d : Diagram) (place : Nat) : List Arrow := d.arrows.filter (·.source = place)

/-- The arrows that leave a node, in the order in which they were drawn. -/
def edgesFrom (d : Diagram) (id : String) : List Edge :=
  match d.index? id with
  | some place => (d.arrowsFrom place).map d.edge
  | none => []

/-- The label at a place on one line. -/
def labelAt (d : Diagram) (place : Nat) : String :=
  ((d.vertices[place]?).map Vertex.inlineLabel).getD "?"

/-- The label of a node on one line. -/
def inlineLabel (d : Diagram) (id : String) : String :=
  ((d.vertex? id).map Vertex.inlineLabel).getD "?"

end Diagram

end Transducers
