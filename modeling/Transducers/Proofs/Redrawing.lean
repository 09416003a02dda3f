import Mathlib.Data.List.Nodup
import Transducers.Diagram.Export
import Transducers.Proofs.Drawings

/-!
# Exports hold whole diagrams

An export names places by ids and leaves out the table and the flags.  Nothing is lost by
that: the diagram can be computed from its export, and drawing the export gives it again.

* `entries_places_replay`: the table of a drawn diagram lists its ids with their places;
* `Export.diagram`, `diagram_exported`: a drawn diagram, computed from its export;
* `Export.Sound`, `sound_exported`: what holds of the export of a drawn diagram;
* `Export.exported_replay`: a sound export is the export of its drawing;
* `run_replay_self`: what the same calls do when they are played again;
* `replay_exported`: drawing the export of a diagram gives the diagram.
-/

namespace Transducers

/-! ## The table of places -/

namespace Diagram

/-- The table lists the ids with their places, in the order of the places. -/
def Indexed (d : Diagram) : Prop := d.places.entries = d.ids.zipIdx

namespace Indexed

variable {d : Diagram} (h : d.Indexed)
include h

theorem push {id : String} (hid : d.places.get? id = none) (label : String) :
    (d.push id label).Indexed := by
  have hlength : d.vertices.length = d.ids.length := (List.length_map _).symm
  have hids : (d.push id label).ids = d.ids ++ [id] := by simp [ids, Diagram.push]
  unfold Indexed
  rw [hids, List.zipIdx_append, ← h]
  simp only [Diagram.push, hlength]
  rw [OrderedMap.entries_insert _ (OrderedMap.get?_eq_none_iff.mp hid)]
  simp

/-- A change of a vertex that leaves it its id. -/
theorem modify (place : Nat) {change : Vertex → Vertex} (hchange : ∀ v, (change v).id = v.id) :
    ({ d with vertices := d.vertices.modify place change }).Indexed := by
  have hids : (d.vertices.modify place change).map Vertex.id = d.vertices.map Vertex.id := by
    apply List.ext_getElem?
    intro i
    rw [List.getElem?_map, List.getElem?_map, List.getElem?_modify]
    cases d.vertices[i]? with
    | none => rfl
    | some v =>
      show some (if place = i then change v else v).id = some v.id
      split
      · rw [hchange]
      · rfl
  exact h.trans (congrArg List.zipIdx hids.symm)

theorem addNode (id label : String) : (d.addNode id label).Indexed := by
  unfold Diagram.addNode
  split
  · exact h.modify _ fun _ => rfl
  · rename_i hid
    exact h.push hid label

theorem ensureNode (id : String) : (d.ensureNode id).1.Indexed := by
  unfold Diagram.ensureNode
  split
  · exact h
  · rename_i hid
    exact h.push hid id

theorem unflagged : d.unflagged.Indexed := by
  unfold Diagram.unflagged
  split
  · exact h.modify _ fun _ => rfl
  · exact h

/-- **One call.** -/
theorem play (c : Call) : (sink.play d c).Indexed := by
  cases c with
  | node id label => exact h.addNode id label
  | edge source target label => exact (h.ensureNode source).ensureNode target
  | rank direction => exact h
  | initial id => exact (h.unflagged.ensureNode id).modify _ fun _ => rfl

end Indexed

/-- **A whole drawing.** -/
theorem entries_places_replay (name : String) (calls : List Call) :
    (replay name calls).places.entries = (replay name calls).ids.zipIdx := by
  induction calls using List.reverseRecOn with
  | nil => rfl
  | append_singleton calls c ih =>
    rw [replay, Sink.run_append]
    exact Indexed.play ih c

end Diagram

/-! ## Diagrams from exports -/

namespace Export

def ids (x : Export) : List String := x.nodes.map Node.id

/-- The diagram that an export tells of. -/
def diagram (x : Export) : Diagram where
  name := x.name
  vertices := x.nodes.map fun n => ⟨n.id, n.label, x.initial == some n.id⟩
  arrows := x.edges.map fun e => ⟨x.ids.idxOf e.source, x.ids.idxOf e.target, e.label⟩
  places := .ofList x.ids.zipIdx
  rank := x.rank
  start := x.initial.map fun id => x.ids.idxOf id

/-- Ids are given once, and arrows and the mark of the initial node name ids that are
given. -/
structure Sound (x : Export) : Prop where
  nodup : x.ids.Nodup
  ends : ∀ e ∈ x.edges, e.source ∈ x.ids ∧ e.target ∈ x.ids
  initial : ∀ id, x.initial = some id → id ∈ x.ids

end Export

namespace Diagram

variable (name : String) (calls : List Call)

theorem ids_exported (d : Diagram) : d.exported.ids = d.ids := by
  simp [Export.ids, exported, nodes, ids]

theorem nodes_replay : (replay name calls).nodes =
    (mentioned calls).map fun id => ⟨id, lastLabel calls id⟩ := by
  rw [nodes, (records_replay name calls).depicts.vertices, List.map_map]
  rfl

/-- The export says which nodes, arrows and marks there are, and so the whole diagram. -/
theorem diagram_exported : (replay name calls).exported.diagram = replay name calls := by
  have h := records_replay name calls
  have hids : (replay name calls).exported.ids = mentioned calls :=
    (ids_exported _).trans h.depicts.ids_eq
  have hinitial : (replay name calls).exported.initial = lastInitial calls :=
    initial_replay name calls
  have hvertices : (replay name calls).exported.diagram.vertices =
      (replay name calls).vertices := by
    simp only [Export.diagram, hinitial, h.depicts.vertices]
    simp [exported, nodes_replay]
  have harrows : (replay name calls).exported.diagram.arrows = (replay name calls).arrows := by
    simp only [Export.diagram, hids, h.depicts.arrows]
    simp [exported, h.depicts.edges_eq]
  have hplaces : (replay name calls).exported.diagram.places = (replay name calls).places := by
    show OrderedMap.ofList (replay name calls).exported.ids.zipIdx = _
    rw [ids_exported, ← entries_places_replay, OrderedMap.ofList_entries]
  have hstart : (replay name calls).exported.diagram.start = (replay name calls).start := by
    simp only [Export.diagram, hids, hinitial, h.start]
  calc (replay name calls).exported.diagram
      = ⟨(replay name calls).name, (replay name calls).exported.diagram.vertices,
          (replay name calls).exported.diagram.arrows,
          (replay name calls).exported.diagram.places, (replay name calls).rank,
          (replay name calls).exported.diagram.start⟩ := rfl
    _ = replay name calls := by rw [hvertices, harrows, hplaces, hstart]

theorem sound_exported : (replay name calls).exported.Sound := by
  have h := records_replay name calls
  have hids : (replay name calls).exported.ids = mentioned calls :=
    (ids_exported _).trans h.depicts.ids_eq
  constructor
  case nodup =>
    rw [hids]
    exact h.depicts.nodup
  case ends =>
    intro e he
    rw [hids]
    exact h.depicts.ends e (h.depicts.edges_eq ▸ he)
  case initial =>
    intro id hid
    rw [hids]
    exact h.mem_mentioned ((initial_replay name calls).symm.trans hid)

end Diagram

/-! ## Drawing twice -/

theorem getLast?_filterMap_append_self {α β : Type} (f : α → Option β) (l : List α) :
    ((l ++ l).filterMap f).getLast? = (l.filterMap f).getLast? := by
  rw [List.filterMap_append, List.getLast?_append, Option.or_self]

namespace Diagram

variable (name : String) (calls : List Call)

/-- Calls that are read again add their arrows to the export. -/
theorem exported_replay_append_self : (replay name (calls ++ calls)).exported =
    { (replay name calls).exported with
      edges := (replay name calls).edges ++ (replay name calls).edges } := by
  have hmentioned : mentioned (calls ++ calls) = mentioned calls :=
    mentioned_append_of_subset (List.Subset.refl _)
  have hlabel : lastLabel (calls ++ calls) = lastLabel calls := by
    funext id
    rw [lastLabel, getLast?_filterMap_append_self, lastLabel]
  have hinitial : lastInitial (calls ++ calls) = lastInitial calls :=
    getLast?_filterMap_append_self _ calls
  have hrank : lastRank (calls ++ calls) = lastRank calls := by
    rw [lastRank, getLast?_filterMap_append_self, lastRank]
  have hedges : drawnEdges (calls ++ calls) = drawnEdges calls ++ drawnEdges calls :=
    List.filterMap_append
  have h := records_replay name calls
  have htwice := records_replay name (calls ++ calls)
  rw [exported, exported, name_replay, name_replay, htwice.rank, h.rank, hrank, initial_replay,
    initial_replay, hinitial, nodes_replay, nodes_replay, hmentioned, hlabel,
    htwice.depicts.edges_eq, h.depicts.edges_eq, hedges]

/-- **To draw the same once more** adds the same arrows and changes nothing else. -/
theorem run_replay_self : sink.run (replay name calls) calls =
    { replay name calls with
      arrows := (replay name calls).arrows ++ (replay name calls).arrows } := by
  have harrows (x : Export) : { x with edges := x.edges ++ x.edges }.diagram =
      { x.diagram with arrows := x.diagram.arrows ++ x.diagram.arrows } := by
    simp [Export.diagram, Export.ids]
  calc sink.run (replay name calls) calls
      = replay name (calls ++ calls) := (Sink.run_append sink (empty name) calls calls).symm
    _ = (replay name (calls ++ calls)).exported.diagram := (diagram_exported ..).symm
    _ = { (replay name calls).exported.diagram with
          arrows := (replay name calls).exported.diagram.arrows ++
            (replay name calls).exported.diagram.arrows } := by
        rw [exported_replay_append_self]
        exact harrows (replay name calls).exported
    _ = _ := by rw [diagram_exported]

end Diagram

/-! ## Drawing an export -/

namespace Export

theorem drawnEdges_calls (x : Export) : drawnEdges x.calls = x.edges := by
  simp only [drawnEdges, calls, List.filterMap_append, List.filterMap_cons, List.filterMap_nil,
    List.filterMap_map, Function.comp_def, Call.edge?, List.filterMap_none]
  simp

theorem lastRank_calls (x : Export) : lastRank x.calls = x.rank := by
  simp only [lastRank, calls, List.filterMap_append, List.filterMap_cons, List.filterMap_nil,
    List.filterMap_map, Function.comp_def, Call.rank?, List.filterMap_none]
  rfl

theorem lastInitial_calls (x : Export) : lastInitial x.calls = x.initial := by
  simp only [lastInitial, calls, List.filterMap_append, List.filterMap_cons, List.filterMap_nil,
    List.filterMap_map, Function.comp_def, Call.initial?, List.filterMap_none, List.nil_append]
  cases x.initial <;> rfl

theorem node_mem_calls {x : Export} {id label : String} :
    .node id label ∈ x.calls ↔ ⟨id, label⟩ ∈ x.nodes := by
  constructor
  · intro h
    simp only [calls, List.mem_append, List.mem_map, List.mem_singleton, reduceCtorEq, and_false,
      exists_false, or_false, false_or, Call.node.injEq] at h
    obtain ⟨n, hn, rfl, rfl⟩ := h
    exact hn
  · intro h
    simp only [calls, List.mem_append, List.mem_map]
    exact Or.inl (Or.inl (Or.inr ⟨_, h, rfl⟩))

namespace Sound

variable {x : Export} (h : x.Sound)
include h

theorem mentioned_calls : mentioned x.calls = x.ids := by
  have hnodes : ([Call.rank x.rank] ++ x.nodes.map fun n => Call.node n.id n.label).flatMap
      Call.mentions = x.ids := by
    simp [List.flatMap_map, ← List.map_eq_flatMap, ids]
  have hmore : (x.edges.map fun e => Call.edge e.source e.target e.label).flatMap Call.mentions ++
      (x.initial.toList.map Call.initial).flatMap Call.mentions ⊆ x.ids := by
    intro id hid
    simp only [List.mem_append, List.mem_flatMap, List.mem_map, Option.mem_toList] at hid
    rcases hid with ⟨_, ⟨e, he, rfl⟩, hid⟩ | ⟨_, ⟨a, ha, rfl⟩, hid⟩
    · obtain ⟨hs, ht⟩ := h.ends e he
      simp only [Call.mentions, List.mem_cons, List.not_mem_nil, or_false] at hid
      rcases hid with rfl | rfl
      · exact hs
      · exact ht
    · rw [List.mem_singleton.mp hid]
      exact h.initial a ha
  rw [calls, List.append_assoc, mentioned_append_of_subset, mentioned, hnodes,
    eraseDups_of_nodup h.nodup]
  rw [hnodes, List.flatMap_append]
  exact hmore

/-- A node has one label. -/
theorem label_eq {n : Node} {text : String} (hn : n ∈ x.nodes) (htext : ⟨n.id, text⟩ ∈ x.nodes) :
    text = n.label := by
  have heq : (⟨n.id, text⟩ : Node) = n := List.inj_on_of_nodup_map h.nodup htext hn rfl
  rw [← heq]

theorem lastLabel_calls {n : Node} (hn : n ∈ x.nodes) : lastLabel x.calls n.id = n.label :=
  lastLabel_eq (node_mem_calls.mpr hn) fun _ htext => h.label_eq hn (node_mem_calls.mp htext)

/-- **A sound export is the export of its drawing.** -/
theorem exported_replay : (Diagram.replay x.name x.calls).exported = x := by
  have hd := (Diagram.records_replay x.name x.calls).depicts
  have hnodes : (Diagram.replay x.name x.calls).nodes = x.nodes := by
    rw [Diagram.nodes_replay, h.mentioned_calls, ids, List.map_map]
    refine (List.map_congr_left fun n hn => ?_).trans (List.map_id x.nodes)
    show (⟨n.id, lastLabel x.calls n.id⟩ : Node) = n
    rw [h.lastLabel_calls hn]
  have hedges : (Diagram.replay x.name x.calls).edges = x.edges :=
    hd.edges_eq.trans x.drawnEdges_calls
  have hinitial : (Diagram.replay x.name x.calls).initial = x.initial :=
    (Diagram.initial_replay ..).trans x.lastInitial_calls
  have hrank : (Diagram.replay x.name x.calls).rank = x.rank :=
    (Diagram.records_replay x.name x.calls).rank.trans x.lastRank_calls
  rw [Diagram.exported, Diagram.name_replay, hrank, hinitial, hnodes, hedges]

/-- So the drawing makes the diagram that the export tells of. -/
theorem replay_eq_diagram : Diagram.replay x.name x.calls = x.diagram := by
  rw [← Diagram.diagram_exported, h.exported_replay]

end Sound

end Export

namespace Diagram

/-- **An export holds the whole diagram.**  It gives each id once, its arrows and its
initial node name ids that it gives, and drawing it makes the diagram again: the same
nodes, labels and flags at the same places, found for the same ids, with the same arrows in
the same order, and so with the same export and the same arrows from each node. -/
theorem replay_exported (name : String) (calls : List Call) :
    ((replay name calls).exported.nodes.map Node.id).Nodup ∧
    (∀ e ∈ (replay name calls).exported.edges,
      e.source ∈ (replay name calls).exported.nodes.map Node.id ∧
      e.target ∈ (replay name calls).exported.nodes.map Node.id) ∧
    (∀ id, (replay name calls).exported.initial = some id →
      id ∈ (replay name calls).exported.nodes.map Node.id) ∧
    replay name (replay name calls).exported.calls = replay name calls := by
  have h := sound_exported name calls
  refine ⟨h.nodup, h.ends, h.initial, ?_⟩
  calc replay name (replay name calls).exported.calls
      = replay (replay name calls).exported.name (replay name calls).exported.calls := by
        rw [exported, name_replay]
    _ = (replay name calls).exported.diagram := h.replay_eq_diagram
    _ = replay name calls := diagram_exported name calls

/-- The calls are others, since the arrow before the nodes made them in the order of its
ends. -/
theorem replay_exported_revised :
    (replay "g" revised).exported.calls ≠ revised ∧
    replay "g" (replay "g" revised).exported.calls = replay "g" revised ∧
    (⟨"A", "B", "0"⟩ : Edge) ∈ (replay "g" revised).exported.edges ∧
    "A" ∈ (replay "g" revised).exported.nodes.map Node.id ∧
    (replay "g" revised).exported.initial = some "B" ∧
    "B" ∈ (replay "g" revised).exported.nodes.map Node.id := by
  obtain ⟨-, hends, hinitial, hreplay⟩ := replay_exported "g" revised
  have hedge : (⟨"A", "B", "0"⟩ : Edge) ∈ (replay "g" revised).exported.edges := by decide
  have hmark : (replay "g" revised).exported.initial = some "B" := by decide
  exact ⟨by decide, hreplay, hedge, (hends _ hedge).1, hmark, hinitial _ hmark⟩

end Diagram

end Transducers
