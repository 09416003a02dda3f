import Transducers.Diagram.Export
import Transducers.Proofs.MachineDrawings
import Transducers.Proofs.MooreStates

/-!
# Moore machines told from their diagrams

The arrows of the diagram are the cells of the transition table.  A machine that a
conversion makes has an output for each of its states and names no others, so no node is
made on the way, and the machine can be told from its diagram up to its input symbols.

* `Moore.edges_diagram`, `Moore.initial_diagram`: the diagram of any Moore machine;
* `Moore.Legible`: what a diagram needs to show a whole machine;
* `Moore.legible_toMoore`: what a conversion makes is legible;
* `Moore.Legible.ids_diagram`, `Moore.Legible.nodes_diagram`: the nodes are the states;
* `Moore.Legible.eq_of_exported_eq`: a machine is told from its diagram;
* `Mealy.diagram_toMoore`: the diagram of a converted machine loses nothing.
-/

namespace Transducers

namespace Moore

/-! ## The diagram of a machine -/

theorem node_mem_drawing {m : Moore} {id label : String} :
    .node id label ∈ m.drawing ↔ id ∈ m.states ∧ label = m.nodeLabel id := by
  rw [m.drawing_eq, m.nodeLabel_eq]
  exact Sketch.node_mem_calls

theorem lastLabel_drawing {m : Moore} {state : String} (h : state ∈ m.states) :
    lastLabel m.drawing state = m.nodeLabel state := by
  rw [m.drawing_eq, m.nodeLabel_eq]
  exact Sketch.lastLabel_of_mem (k := m.sketch) h

theorem shows_diagram (m : Moore) : m.diagram.Shows m.sketch := by
  rw [diagram, m.drawing_eq]
  exact m.sketch.shows_replay diagramName

/-- The arrows are the cells of the table, row after row. -/
theorem edges_diagram (m : Moore) :
    m.diagram.edges = m.transitions.cells.map fun c => ⟨c.1, c.2.2, c.2.1⟩ :=
  m.shows_diagram.edges

theorem edgeCount_diagram (m : Moore) : m.diagram.edgeCount = m.transitionCount :=
  m.shows_diagram.edgeCount_eq.trans (Machine.moore m).length_edges_sketch

theorem initial_diagram (m : Moore) : m.diagram.initial = some m.initialState :=
  m.shows_diagram.initial

/-! ## Machines that a diagram shows as a whole -/

/-- The states are those that have an output, in the same order, the table and the initial
state name no others, and no row is empty. -/
structure Legible (m : Moore) : Prop where
  outputs : m.outputs.keys = m.states
  initial : m.initialState ∈ m.states
  cells : ∀ state symbol next, m.transitions.cell? state symbol = some next →
    state ∈ m.states ∧ next ∈ m.states
  rows : ∀ row ∈ m.transitions.entries, row.2.entries ≠ []

/-- **What a conversion makes is legible.** -/
theorem legible_toMoore {n : Mealy} {m : Moore} (h : n.toMoore = .ok m) : m.Legible where
  outputs := by
    obtain ⟨k, start, -, rfl⟩ := Mealy.toMoore_eq_ok h
    rfl
  initial := by
    obtain ⟨output, hmade⟩ := Mealy.splitInto_initialState h
    exact (Mealy.mem_states_toMoore h).mpr ⟨_, hmade⟩
  cells := by
    intro id symbol next hcell
    obtain ⟨_, _, _, _, ⟨output, hsource⟩, _, htarget⟩ := (Mealy.cell?_toMoore h).mp hcell
    exact ⟨(Mealy.mem_states_toMoore h).mpr ⟨_, hsource⟩,
      (Mealy.mem_states_toMoore h).mpr ⟨_, htarget⟩⟩
  rows := by
    obtain ⟨k, start, -, rfl⟩ := Mealy.toMoore_eq_ok h
    intro row hrow
    have hkey : row.1 ∈ (Synthesis.wire n k).keys := List.mem_map_of_mem hrow
    rw [Synthesis.wire_eq_writeAll] at hkey
    obtain ⟨symbol, next, hcell⟩ := Table.exists_cell?_of_mem_keys hkey
    rw [← Synthesis.wire_eq_writeAll] at hcell
    exact Table.entries_ne_nil_of_cell? hrow hcell

namespace Legible

variable {m : Moore} (h : m.Legible)
include h

theorem nodup_states : m.states.Nodup := h.outputs ▸ m.outputs.keys_nodup

/-- After the states, no call mentions another id. -/
theorem mentioned_drawing : mentioned m.drawing = m.states := by
  have hmore : m.sketch.initial :: m.sketch.edges.flatMap Edge.ends ⊆ m.states := by
    refine List.cons_subset.mpr ⟨h.initial, fun id hid => ?_⟩
    obtain ⟨e, he, hid⟩ := List.mem_flatMap.mp hid
    obtain ⟨⟨s, x, next⟩, hcell, rfl⟩ := List.mem_map.mp he
    obtain ⟨hs, hn⟩ := h.cells s x next (Table.mem_cells_iff.mp hcell)
    simp only [Edge.ends, List.mem_cons, List.not_mem_nil, or_false] at hid
    rcases hid with rfl | rfl
    · exact hs
    · exact hn
  rw [m.drawing_eq, Sketch.mentioned_calls]
  exact (eraseDups_append_of_subset hmore).trans (eraseDups_of_nodup h.nodup_states)

/-- The nodes are the states, in order. -/
theorem ids_diagram : m.diagram.ids = m.states :=
  (Diagram.records_replay diagramName m.drawing).depicts.ids_eq.trans h.mentioned_drawing

/-- Each node is labelled with a state and its output. -/
theorem nodes_diagram :
    m.diagram.nodes = m.outputs.entries.map fun e => ⟨e.1, e.1 ++ "\n" ++ e.2⟩ := by
  have hstates : m.states = m.outputs.entries.map Prod.fst := h.outputs.symm
  rw [diagram, Diagram.nodes_replay, h.mentioned_drawing, hstates, List.map_map]
  refine List.map_congr_left fun e he => ?_
  have hmem : e.1 ∈ m.states := hstates ▸ List.mem_map_of_mem he
  have hget : m.outputs.get? e.1 = some e.2 := OrderedMap.mem_entries_iff.mp he
  show (⟨e.1, lastLabel m.drawing e.1⟩ : Node) = _
  rw [lastLabel_drawing hmem, nodeLabel, hget]

/-- **A machine is told from its diagram**, up to its input symbols. -/
theorem eq_of_exported_eq {n : Moore} (hn : n.Legible)
    (heq : m.diagram.exported = n.diagram.exported) :
    m.states = n.states ∧ m.outputs = n.outputs ∧ m.initialState = n.initialState ∧
      m.transitions = n.transitions := by
  have hnodes : m.diagram.nodes = n.diagram.nodes := congrArg Export.nodes heq
  have hedges : m.diagram.edges = n.diagram.edges := congrArg Export.edges heq
  have hinitial : m.diagram.initial = n.diagram.initial := congrArg Export.initial heq
  -- A label begins with the id of its node, so the rest of it is the output.
  have hentries : m.outputs.entries = n.outputs.entries := by
    rw [h.nodes_diagram, hn.nodes_diagram] at hnodes
    refine List.map_injective_iff.mpr (fun a b hab => ?_) hnodes
    obtain ⟨hid, hlabel⟩ := Node.mk.inj hab
    rw [hid, String.append_right_inj] at hlabel
    exact Prod.ext hid hlabel
  have hcells : m.transitions.cells = n.transitions.cells := by
    rw [edges_diagram, edges_diagram] at hedges
    refine List.map_injective_iff.mpr (fun a b hab => ?_) hedges
    obtain ⟨hsource, htarget, hlabel⟩ := Edge.mk.inj hab
    exact Prod.ext hsource (Prod.ext hlabel htarget)
  refine ⟨?_, ?_, ?_, ?_⟩
  · rw [← h.outputs, ← hn.outputs]
    exact congrArg (List.map Prod.fst) hentries
  · rw [← m.outputs.ofList_entries, ← n.outputs.ofList_entries, hentries]
  · rw [initial_diagram, initial_diagram, Option.some.injEq] at hinitial
    exact hinitial
  · rw [← Table.writeAll_cells h.rows, ← Table.writeAll_cells hn.rows, hcells]

end Legible

end Moore

namespace Mealy

/-- **The diagram of a converted machine loses nothing.**  Its nodes are the states of the
machine, one each and in their order, and every one was drawn as a state with its output on
a second line of the label.  There is an arrow for each transition.  Two such machines with
the same diagram have the same states, outputs, initial state and transitions, in the same
orders. -/
theorem diagram_toMoore {m : Mealy} {M : Moore} (h : m.toMoore = .ok M) :
    M.diagram.ids = M.states ∧ M.states.Nodup ∧
    (∀ n ∈ M.diagram.nodes, .node n.id n.label ∈ M.drawing ∧
      ∃ output, M.output n.id = .ok output ∧ n.label = n.id ++ "\n" ++ output) ∧
    M.diagram.edgeCount = M.transitionCount ∧
    ∀ m' M', Mealy.toMoore m' = .ok M' → M.diagram.exported = M'.diagram.exported →
      M.states = M'.states ∧ M.outputs = M'.outputs ∧ M.initialState = M'.initialState ∧
        M.transitions = M'.transitions := by
  have hM := Moore.legible_toMoore h
  refine ⟨hM.ids_diagram, hM.nodup_states, ?_, M.edgeCount_diagram, fun m' M' h' heq => ?_⟩
  · intro n hn
    rw [hM.nodes_diagram, List.mem_map] at hn
    obtain ⟨e, he, rfl⟩ := hn
    have hget : M.outputs.get? e.1 = some e.2 := OrderedMap.mem_entries_iff.mp he
    have hstate : e.1 ∈ M.states := hM.outputs ▸ List.mem_map_of_mem he
    refine ⟨Moore.node_mem_drawing.mpr ⟨hstate, ?_⟩, e.2, Moore.output_eq_ok_iff.mpr hget, rfl⟩
    rw [Moore.nodeLabel, hget]
  · exact hM.eq_of_exported_eq (Moore.legible_toMoore h') heq

/-- Names and outputs with line breaks in them. -/
def lined : Mealy :=
  ((new "A").withTransition "A" "0" "A\nx" "y").withTransition "A\nx" "0" "A" "x\ny"

/-- The same machine with its symbol declared twice. -/
def linedTwice : Mealy := { lined with inputSymbols := ["0", "0"] }

theorem diagram_toMoore_lined :
    ∃ M M', lined.toMoore = .ok M ∧ linedTwice.toMoore = .ok M' ∧ M ≠ M' ∧
      M.diagram.nodes = [⟨"A\nx_y", "A\nx_y\ny"⟩, ⟨"A_x\ny", "A_x\ny\nx\ny"⟩] ∧
      M.output "A_x\ny" = .ok "x\ny" ∧
      M.diagram.exported = M'.diagram.exported ∧ M.transitions = M'.transitions := by
  obtain ⟨-, -, hnodes, -, hsame⟩ := diagram_toMoore (m := lined) rfl
  obtain ⟨-, output, houtput, hlabel⟩ := hnodes ⟨"A_x\ny", "A_x\ny\nx\ny"⟩ (by decide)
  have hexported := hsame linedTwice _ rfl (by decide)
  have hwhole : "A_x\ny\nx\ny" = "A_x\ny" ++ "\n" ++ "x\ny" := by decide
  have hrest : output = "x\ny" := by
    rw [hwhole, String.append_right_inj] at hlabel
    exact hlabel.symm
  exact ⟨_, _, rfl, rfl, by decide, by decide, hrest ▸ houtput, by decide, hexported.2.2.2⟩

end Mealy

end Transducers
