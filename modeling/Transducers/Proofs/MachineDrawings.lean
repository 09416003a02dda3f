import Transducers.Diagram.Draw
import Transducers.Proofs.Redrawing

/-!
# What the diagram of a machine shows

Machines of both kinds are drawn in the same way: the declared states with labels, the mark
of the initial state, and an arrow for each cell of the transition table.  The table may name
states that are not declared; they become nodes when an arrow or the mark names them.

* `Sketch`: what is drawn of a machine, and `Mealy.sketch`, `Moore.sketch`;
* `Moore.nodeLabel_eq`: the label of a state is its id, with a registered output below it;
* `Mealy.drawing_eq`, `Moore.drawing_eq`: a drawing is that of the sketch;
* `Diagram.Shows`, `Sketch.shows_replay`: what the diagram of a sketch shows;
* `Machine.diagram_shows`: the diagram of a machine shows the whole machine.
-/

namespace Transducers

/-- What is drawn of a machine. -/
structure Sketch where
  states : List String
  /-- The label of a declared state. -/
  label : String → String
  initial : String
  edges : List Edge

def Edge.ends (e : Edge) : List String := [e.source, e.target]

namespace Sketch

def calls (k : Sketch) : List Call :=
  [.rank .leftToRight] ++ k.states.map (fun s => .node s (k.label s)) ++ [.initial k.initial] ++
    k.edges.map fun e => .edge e.source e.target e.label

/-- The declared states, then the initial state, then the ends of each arrow. -/
def mentions (k : Sketch) : List String :=
  k.states ++ k.initial :: k.edges.flatMap Edge.ends

end Sketch

/-- A Mealy machine shows the output of a transition on its arrow. -/
def Mealy.sketch (m : Mealy) : Sketch where
  states := m.states
  label state := state
  initial := m.initialState
  edges := m.transitions.cells.map fun (state, symbol, t) =>
    ⟨state, t.next, symbol ++ "/" ++ t.output⟩

/-- A Moore machine shows the output of a state on a second line under its id, and the bare
id of a state without output. -/
def Moore.sketch (m : Moore) : Sketch where
  states := m.states
  label state := (m.outputs.get? state).elim state fun output => state ++ "\n" ++ output
  initial := m.initialState
  edges := m.transitions.cells.map fun (state, symbol, next) => ⟨state, next, symbol⟩

def Machine.sketch : Machine → Sketch
  | mealy m => m.sketch
  | moore m => m.sketch

theorem Mealy.drawing_eq (m : Mealy) : m.drawing = m.sketch.calls := by
  simp [drawing, sketch, Sketch.calls]

theorem Moore.nodeLabel_eq (m : Moore) (state : String) :
    m.nodeLabel state =
      (m.outputs.get? state).elim state fun output => state ++ "\n" ++ output := by
  unfold nodeLabel
  cases m.outputs.get? state <;> rfl

theorem Moore.drawing_eq (m : Moore) : m.drawing = m.sketch.calls := by
  simp [drawing, sketch, Sketch.calls, nodeLabel_eq]

theorem Machine.drawing_eq (m : Machine) : m.drawing = m.sketch.calls := by
  cases m with
  | mealy m => exact m.drawing_eq
  | moore m => exact m.drawing_eq

/-- The diagram shows the sketch: its arrows in order, a node for each name at its first
mention, the labels of the declared states, every other node with its own name, and the mark
of the initial state, from left to right. -/
structure Diagram.Shows (d : Diagram) (k : Sketch) : Prop where
  edges : d.edges = k.edges
  ids : d.ids = k.mentions.eraseDups
  declared : ∀ n ∈ d.nodes, n.id ∈ k.states → n.label = k.label n.id
  undeclared : ∀ n ∈ d.nodes, n.id ∉ k.states → n.label = n.id
  initial : d.initial = some k.initial
  /-- Only the initial node has the flag. -/
  flagged : ∀ v ∈ d.vertices, v.initial = true ↔ v.id = k.initial
  rank : d.rank = .leftToRight

theorem Diagram.Shows.edgeCount_eq {d : Diagram} {k : Sketch} (h : d.Shows k) :
    d.edgeCount = k.edges.length := by
  have hlength : d.edges.length = d.edgeCount := List.length_map _
  rw [← hlength, h.edges]

namespace Sketch

variable (k : Sketch)

theorem mentioned_calls : mentioned k.calls = k.mentions.eraseDups := by
  have hstates : (k.states.map fun s => Call.node s (k.label s)).flatMap Call.mentions =
      k.states := by
    rw [List.flatMap_map]
    exact List.flatMap_singleton' k.states
  have hedges : (k.edges.map fun e => Call.edge e.source e.target e.label).flatMap Call.mentions =
      k.edges.flatMap Edge.ends := by
    rw [List.flatMap_map]
    rfl
  rw [mentioned, calls, List.flatMap_append, List.flatMap_append, List.flatMap_append, hstates,
    hedges, mentions]
  simp

theorem drawnEdges_calls : drawnEdges k.calls = k.edges := by
  simp only [drawnEdges, calls, List.filterMap_append, List.filterMap_cons, List.filterMap_nil,
    List.filterMap_map, Function.comp_def, Call.edge?, List.filterMap_none]
  simp

theorem lastRank_calls : lastRank k.calls = .leftToRight := by
  simp only [lastRank, calls, List.filterMap_append, List.filterMap_cons, List.filterMap_nil,
    List.filterMap_map, Function.comp_def, Call.rank?, List.filterMap_none]
  rfl

theorem lastInitial_calls : lastInitial k.calls = some k.initial := by
  simp only [lastInitial, calls, List.filterMap_append, List.filterMap_cons, List.filterMap_nil,
    List.filterMap_map, Function.comp_def, Call.initial?, List.filterMap_none, List.nil_append]
  rfl

theorem node_mem_calls {k : Sketch} {id label : String} :
    .node id label ∈ k.calls ↔ id ∈ k.states ∧ label = k.label id := by
  constructor
  · intro h
    simp only [calls, List.mem_append, List.mem_map, List.mem_singleton, reduceCtorEq, and_false,
      exists_false, or_false, false_or, Call.node.injEq] at h
    obtain ⟨s, hs, rfl, rfl⟩ := h
    exact ⟨hs, rfl⟩
  · rintro ⟨hs, rfl⟩
    simp only [calls, List.mem_append, List.mem_map]
    exact Or.inl (Or.inl (Or.inr ⟨id, hs, rfl⟩))

variable {k}

/-- However often a state is declared, it gets the same label. -/
theorem lastLabel_of_mem {state : String} (h : state ∈ k.states) :
    lastLabel k.calls state = k.label state :=
  lastLabel_eq (node_mem_calls.mpr ⟨h, rfl⟩) fun _ ht => (node_mem_calls.mp ht).2

theorem lastLabel_of_notMem {state : String} (h : state ∉ k.states) :
    lastLabel k.calls state = state :=
  lastLabel_eq_self fun _ ht => h (node_mem_calls.mp ht).1

/-- **The diagram of a sketch shows it.** -/
theorem shows_replay (k : Sketch) (name : String) : (Diagram.replay name k.calls).Shows k := by
  have h := Diagram.records_replay name k.calls
  have hlabel : ∀ n ∈ (Diagram.replay name k.calls).nodes, n.label = lastLabel k.calls n.id := by
    intro n hn
    rw [Diagram.nodes_replay, List.mem_map] at hn
    obtain ⟨id, -, rfl⟩ := hn
    rfl
  constructor
  case edges => exact h.depicts.edges_eq.trans k.drawnEdges_calls
  case ids => exact h.depicts.ids_eq.trans k.mentioned_calls
  case declared => exact fun n hn hs => (hlabel n hn).trans (lastLabel_of_mem hs)
  case undeclared => exact fun n hn hs => (hlabel n hn).trans (lastLabel_of_notMem hs)
  case initial => exact (Diagram.initial_replay ..).trans k.lastInitial_calls
  case flagged =>
    intro v hv
    rw [h.depicts.vertices, List.mem_map] at hv
    obtain ⟨id, -, rfl⟩ := hv
    rw [k.lastInitial_calls, beq_iff_eq, Option.some.injEq]
    exact eq_comm
  case rank => exact h.rank.trans k.lastRank_calls

end Sketch

namespace Machine

theorem exists_diagram_eq (m : Machine) : ∃ name, m.diagram = .replay name m.sketch.calls := by
  cases m with
  | mealy m => exact ⟨Mealy.diagramName, congrArg (Diagram.replay _) m.drawing_eq⟩
  | moore m => exact ⟨Moore.diagramName, congrArg (Diagram.replay _) m.drawing_eq⟩

theorem length_edges_sketch (m : Machine) : m.sketch.edges.length = m.transitionCount := by
  cases m with
  | mealy m => exact (List.length_map _).trans m.transitions.length_cells
  | moore m => exact (List.length_map _).trans m.transitions.length_cells

/-- **A diagram shows the whole machine**, closed or not.  It has an arrow for each cell of the
transition table, row after row; its nodes are the declared states, the initial state and the
ends of the arrows, each at its first mention; declared states have their labels and all others
their names; the initial state is marked, and the diagram goes from left to right.  To draw the
machine into its diagram once more adds the same arrows and changes nothing else. -/
theorem diagram_shows (m : Machine) :
    m.diagram.Shows m.sketch ∧ m.diagram.edgeCount = m.transitionCount ∧
    Diagram.sink.run m.diagram m.drawing =
      { m.diagram with arrows := m.diagram.arrows ++ m.diagram.arrows } ∧
    (Diagram.sink.run m.diagram m.drawing).edges = m.sketch.edges ++ m.sketch.edges := by
  obtain ⟨name, hdiagram⟩ := m.exists_diagram_eq
  have hshows : m.diagram.Shows m.sketch := by
    rw [hdiagram]
    exact m.sketch.shows_replay name
  have htwice : Diagram.sink.run m.diagram m.drawing =
      { m.diagram with arrows := m.diagram.arrows ++ m.diagram.arrows } := by
    rw [hdiagram, m.drawing_eq]
    exact Diagram.run_replay_self name m.sketch.calls
  refine ⟨hshows, ?_, htwice, ?_⟩
  · rw [hshows.edgeCount_eq, length_edges_sketch]
  · rw [htwice, Diagram.edges, List.map_append, ← hshows.edges]
    rfl

/-- A machine that declares a state twice and gives an output to a state that it does not
declare. -/
def untidy : Moore where
  states := ["A", "A"]
  inputSymbols := []
  transitions := (Table.write .empty "C" "0" "A").write "C" "1" "B"
  outputs := .ofList [("A", "x"), ("B", "y")]
  initialState := "B"

example : (moore untidy).diagram.nodes = [⟨"A", "A\nx"⟩, ⟨"B", "B"⟩, ⟨"C", "C"⟩] := by decide

end Machine

end Transducers
