import Transducers.Proofs.DotText
import Transducers.Proofs.Redrawing

/-!
# What a DOT text denotes

A reader of a DOT text makes a graph, one statement after another.  A quoted id names one
node, so a statement about an id that is there changes its node.  The marker has an id, too:
the point from which the arrow to the initial node comes is a node of its own only where no
node of the diagram has that id.

* `DotGraph.read`, `DotGraph.ofStatements`: the graph that statements denote;
* `DotGraph.Tells.read`, `DotGraph.tells_ofStatements`: what one statement does to the graph,
  and what is in it after all of them;
* `DotGraph.isReadFrom_dot_iff`: a text is read in one way;
* `DotGraph.Shows`: a graph shows a diagram and the mark of its initial node;
* `Diagram.dot_shows_iff`: which texts denote a graph that shows the diagram.
-/

namespace Transducers

structure DotNode where
  id : String
  /-- Whether it is drawn as a point. -/
  isPoint : Bool
  label : String
  deriving DecidableEq, Repr

/-- An arrow, which may have no label. -/
structure DotArrow where
  source : String
  target : String
  label : Option String
  deriving DecidableEq, Repr

/-- The graph that a DOT text denotes. -/
structure DotGraph where
  nodes : List DotNode
  arrows : List DotArrow
  deriving DecidableEq, Repr

namespace DotGraph

/-! ## Reading statements -/

def empty : DotGraph := ⟨[], []⟩

/-- Change the node with an id.  If it is not there, it is added first, as a node labelled
with its id. -/
def describe (g : DotGraph) (id : String) (change : DotNode → DotNode) : DotGraph :=
  { g with nodes :=
      if id ∈ g.nodes.map DotNode.id then g.nodes.map fun n => if n.id = id then change n else n
      else g.nodes ++ [change ⟨id, false, id⟩] }

/-- One statement.  The ends of an arrow become nodes if they are not. -/
def read (g : DotGraph) : DotStatement → DotGraph
  | .point id => g.describe id fun n => { n with isPoint := true, label := "" }
  | .node id label => g.describe id fun n => { n with label := label }
  | .arrow source target label =>
    let g := (g.describe source fun n => n).describe target fun n => n
    { g with arrows := g.arrows ++ [⟨source, target, label⟩] }

def ofStatements (statements : List DotStatement) : DotGraph := statements.foldl read empty

end DotGraph

namespace DotStatement

/-- The call that names and labels the same nodes.  A point is labelled with nothing. -/
def call : DotStatement → Call
  | point id => .node id ""
  | node id label => .node id label
  | arrow source target label => .edge source target (label.getD "")

def arrow? : DotStatement → Option DotArrow
  | arrow source target label => some ⟨source, target, label⟩
  | _ => none

end DotStatement

/-- What statements tell of the node with an id: whether one of them makes it a point, and
the last label that it is given. -/
def dotNodeOf (statements : List DotStatement) (id : String) : DotNode :=
  ⟨id, decide (.point id ∈ statements), lastLabel (statements.map DotStatement.call) id⟩

theorem dotNodeOf_of_notMem {ss : List DotStatement} {id : String}
    (h : id ∉ mentioned (ss.map DotStatement.call)) : dotNodeOf ss id = ⟨id, false, id⟩ := by
  have hcalls : ∀ s ∈ ss, id ∉ s.call.mentions := by
    intro s hs hid
    rw [mentioned, List.mem_eraseDups, List.mem_flatMap] at h
    exact h ⟨s.call, List.mem_map_of_mem hs, hid⟩
  have hpoint : .point id ∉ ss := fun hs => hcalls _ hs (List.mem_singleton_self id)
  have hlabel : lastLabel (ss.map DotStatement.call) id = id := by
    refine lastLabel_eq_self fun text htext => ?_
    obtain ⟨s, hs, hcall⟩ := List.mem_map.mp htext
    exact hcalls s hs (by simp [hcall])
  rw [dotNodeOf, hlabel, decide_eq_false hpoint]

namespace DotGraph

/-- The graph has a node for each id in the statements, at its first mention and as they
tell of it, and an arrow for each statement of an arrow. -/
structure Tells (g : DotGraph) (ss : List DotStatement) : Prop where
  nodes : g.nodes = (mentioned (ss.map DotStatement.call)).map (dotNodeOf ss)
  arrows : g.arrows = ss.filterMap DotStatement.arrow?

theorem nodes_describe {g : DotGraph} {ids : List String} {node : String → DotNode} {id : String}
    (hnodes : g.nodes = ids.map node) (hnode : ∀ i, (node i).id = i)
    (hnew : id ∉ ids → node id = ⟨id, false, id⟩) (change : DotNode → DotNode) :
    (g.describe id change).nodes =
      (declare id ids).map fun i => if i = id then change (node i) else node i := by
  have hids : g.nodes.map DotNode.id = ids := by
    rw [hnodes, List.map_map]
    exact (List.map_congr_left fun i _ => hnode i).trans (List.map_id ids)
  simp only [describe, hids, declare]
  by_cases hid : id ∈ ids
  · rw [if_pos hid, if_pos hid, hnodes, List.map_map]
    refine List.map_congr_left fun i _ => ?_
    simp only [Function.comp_apply, hnode]
  · rw [if_neg hid, if_neg hid, hnodes, List.map_append, List.map_singleton, if_pos rfl, hnew hid]
    congr 1
    refine List.map_congr_left fun i hi => ?_
    rw [if_neg fun heq : i = id => hid (heq ▸ hi)]

/-- A node that is named without being changed. -/
theorem nodes_describe_self {g : DotGraph} {ids : List String} {node : String → DotNode}
    {id : String} (hnodes : g.nodes = ids.map node) (hnode : ∀ i, (node i).id = i)
    (hnew : id ∉ ids → node id = ⟨id, false, id⟩) :
    (g.describe id fun n => n).nodes = (declare id ids).map node := by
  rw [nodes_describe hnodes hnode hnew]
  simp only [ite_self]

namespace Tells

variable {g : DotGraph} {ss : List DotStatement} (h : g.Tells ss)
include h

/-- A statement about one node. -/
theorem describe {s : DotStatement} {id label : String} {change : DotNode → DotNode}
    (hcall : s.call = .node id label) (harrow : s.arrow? = none)
    (hchange : ∀ i, dotNodeOf (ss ++ [s]) i =
      if i = id then change (dotNodeOf ss i) else dotNodeOf ss i) :
    (g.describe id change).Tells (ss ++ [s]) := by
  constructor
  case nodes =>
    rw [nodes_describe h.nodes (fun _ => rfl) dotNodeOf_of_notMem, List.map_append,
      List.map_singleton, mentioned_concat, hcall, funext hchange]
    rfl
  case arrows =>
    rw [List.filterMap_append, List.filterMap_cons_none harrow, List.filterMap_nil,
      List.append_nil]
    exact h.arrows

/-- Each id names one node. -/
theorem ids_eq : g.nodes.map DotNode.id = mentioned (ss.map DotStatement.call) := by
  rw [h.nodes, List.map_map]
  exact List.map_id _

/-- **One statement.** -/
theorem read (s : DotStatement) : (g.read s).Tells (ss ++ [s]) := by
  cases s with
  | point id =>
    refine h.describe rfl rfl fun i => ?_
    obtain rfl | hi := eq_or_ne i id
    · simp [dotNodeOf, lastLabel_concat, DotStatement.call, Call.labelOf?]
    · simp [dotNodeOf, lastLabel_concat, DotStatement.call, Call.labelOf?, hi, hi.symm]
  | node id label =>
    refine h.describe rfl rfl fun i => ?_
    obtain rfl | hi := eq_or_ne i id
    · simp [dotNodeOf, lastLabel_concat, DotStatement.call, Call.labelOf?]
    · simp [dotNodeOf, lastLabel_concat, DotStatement.call, Call.labelOf?, hi, hi.symm]
  | arrow source target label =>
    have hsame : dotNodeOf (ss ++ [.arrow source target label]) = dotNodeOf ss := by
      funext i
      simp [dotNodeOf, lastLabel_concat, DotStatement.call, Call.labelOf?]
    have hsource : (g.describe source fun n => n).nodes =
        (declare source (mentioned (ss.map DotStatement.call))).map (dotNodeOf ss) :=
      nodes_describe_self h.nodes (fun _ => rfl) dotNodeOf_of_notMem
    have hnew : target ∉ declare source (mentioned (ss.map DotStatement.call)) →
        dotNodeOf ss target = ⟨target, false, target⟩ :=
      fun hid => dotNodeOf_of_notMem fun hmem => hid (mem_declare.mpr (Or.inl hmem))
    constructor
    case nodes =>
      rw [hsame, List.map_append, List.map_singleton, mentioned_concat]
      exact nodes_describe_self hsource (fun _ => rfl) hnew
    case arrows =>
      rw [List.filterMap_append, ← h.arrows]
      rfl

end Tells

/-- **All statements.** -/
theorem tells_ofStatements (ss : List DotStatement) : (ofStatements ss).Tells ss := by
  induction ss using List.reverseRecOn with
  | nil => exact ⟨rfl, rfl⟩
  | append_singleton ss s ih =>
    rw [ofStatements, List.foldl_append]
    exact ih.read s

/-! ## Reading texts -/

/-- The text is a document with statements that denote the graph. -/
def IsReadFrom (g : DotGraph) (text : String) : Prop :=
  ∃ name rank statements, text = unlines (dotDocument name rank statements) ∧
    g = ofStatements statements

/-- **A text is read in one way.** -/
theorem isReadFrom_dot_iff {g : DotGraph} {d : Diagram} :
    g.IsReadFrom d.dot ↔ g = ofStatements d.dotStatements := by
  have htext : d.dot = unlines (dotDocument d.name d.rank d.dotStatements) :=
    congrArg unlines d.dotLines_eq
  constructor
  · rintro ⟨name, rank, ss, hss, rfl⟩
    rw [(unlines_dotDocument_inj (htext.symm.trans hss)).2.2]
  · intro hg
    exact ⟨d.name, d.rank, d.dotStatements, htext, hg⟩

end DotGraph

/-! ## Showing a diagram -/

def DotNode.plain (n : Node) : DotNode := ⟨n.id, false, n.label⟩

def DotArrow.labelled (e : Edge) : DotArrow := ⟨e.source, e.target, some e.label⟩

/-- Whether a node is one of the ends. -/
def DotArrow.touches (a : DotArrow) (id : String) : Bool := a.source == id || a.target == id

/-- The graph shows the nodes of a diagram with their labels, and its arrows in order.  If an
initial node is marked, there is one more node: a point, different from every node of the
diagram, whose only arrow is one without label to the initial node. -/
def DotGraph.Shows (g : DotGraph) (d : Diagram) : Prop :=
  match d.initial with
  | none => g.nodes.Perm (d.nodes.map .plain) ∧ g.arrows = d.edges.map .labelled
  | some id => ∃ marker : DotNode, marker.isPoint = true ∧ marker.id ∉ d.ids ∧
      g.nodes.Perm (marker :: d.nodes.map .plain) ∧
      g.arrows.filter (fun a => !a.touches marker.id) = d.edges.map .labelled ∧
      g.arrows.filter (fun a => a.touches marker.id) = [⟨marker.id, id, none⟩]

/-- A graph that shows a diagram has a node more than the diagram, for the mark. -/
theorem DotGraph.Shows.length_nodes {g : DotGraph} {d : Diagram} (h : g.Shows d) :
    g.nodes.length = d.nodeCount + if d.initial.isSome then 1 else 0 := by
  have hnodes : (d.nodes.map DotNode.plain).length = d.nodeCount := by
    simp [Diagram.nodes, Diagram.nodeCount]
  unfold Shows at h
  cases hi : d.initial with
  | none =>
    simp only [hi] at h
    exact h.1.length_eq.trans hnodes
  | some id =>
    simp only [hi] at h
    obtain ⟨marker, -, -, hperm, -⟩ := h
    exact hperm.length_eq.trans (congrArg (· + 1) hnodes)

namespace Diagram

/-! ## The statements of a diagram -/

section Statements

variable {d : Diagram}

theorem filterMap_arrow?_dotStatements (d : Diagram) :
    d.dotStatements.filterMap DotStatement.arrow? =
      d.initial.toList.map (fun id => ⟨startMarker, id, none⟩) ++ d.edges.map .labelled := by
  simp only [dotStatements, List.filterMap_append, List.filterMap_map, Function.comp_def,
    DotStatement.arrow?, List.filterMap_none, List.nil_append, List.filterMap_eq_map']
  rfl

theorem point_mem_dotStatements {id : String} :
    .point id ∈ d.dotStatements ↔ d.initial.isSome ∧ id = startMarker := by
  cases hi : d.initial <;> simp [dotStatements, hi]

theorem node_mem_dotStatements {id label : String} :
    .node id label ∈ d.dotStatements.map DotStatement.call ↔
      (d.initial.isSome ∧ id = startMarker ∧ label = "") ∨ ⟨id, label⟩ ∈ d.nodes := by
  have hnode : (∃ n ∈ d.nodes, n.id = id ∧ n.label = label) ↔ ⟨id, label⟩ ∈ d.nodes := by
    constructor
    · rintro ⟨n, hn, rfl, rfl⟩
      exact hn
    · exact fun hn => ⟨_, hn, rfl, rfl⟩
  cases hi : d.initial <;> simp [dotStatements, hi, DotStatement.call, hnode]

/-- What the statements mention: the marker, the nodes, and the ends of the arrows. -/
theorem mentions_dotStatements (d : Diagram) :
    (d.dotStatements.map DotStatement.call).flatMap Call.mentions =
      d.initial.toList.map (fun _ => startMarker) ++ d.ids ++
        (d.initial.toList.flatMap (fun id => [startMarker, id]) ++
          d.edges.flatMap fun e => [e.source, e.target]) := by
  have hids : d.nodes.map Node.id = d.ids := d.ids_exported
  simp only [dotStatements, List.map_append, List.flatMap_append, List.map_map, List.flatMap_map,
    Function.comp_def, DotStatement.call, Call.mentions, ← List.map_eq_flatMap, List.append_assoc]
  rw [← hids]

variable (h : d.exported.Sound)
include h

theorem nodup_ids_of_sound : d.ids.Nodup := d.ids_exported ▸ h.nodup

/-- The arrows mention no other ids. -/
theorem mentioned_dotStatements : mentioned (d.dotStatements.map DotStatement.call) =
    (d.initial.toList.map (fun _ => startMarker) ++ d.ids).eraseDups := by
  rw [mentioned, mentions_dotStatements, eraseDups_append_of_subset]
  intro i hi
  simp only [List.mem_append, List.mem_flatMap, Option.mem_toList, List.mem_cons,
    List.not_mem_nil, or_false] at hi
  rw [← ids_exported, List.mem_append]
  rcases hi with ⟨id, hid, rfl | rfl⟩ | ⟨e, he, rfl | rfl⟩
  · exact Or.inl (List.mem_map_of_mem (Option.mem_toList.mpr hid))
  · exact Or.inr (h.initial _ hid)
  · exact Or.inr (h.ends e he).1
  · exact Or.inr (h.ends e he).2

variable (hmarker : d.initial = none ∨ startMarker ∉ d.ids)
include hmarker

theorem dotNodeOf_eq_plain {n : Node} (hn : n ∈ d.nodes) :
    dotNodeOf d.dotStatements n.id = .plain n := by
  have hother : ¬(d.initial.isSome ∧ n.id = startMarker) := by
    rintro ⟨hsome, hid⟩
    rcases hmarker with hnone | hmarker
    · simp [hnone] at hsome
    · rw [← hid, ← ids_exported] at hmarker
      exact hmarker (List.mem_map_of_mem hn)
  have hpoint : .point n.id ∉ d.dotStatements := fun hmem =>
    hother (point_mem_dotStatements.mp hmem)
  have hlabel : lastLabel (d.dotStatements.map DotStatement.call) n.id = n.label := by
    refine lastLabel_eq (node_mem_dotStatements.mpr (Or.inr hn)) fun text htext => ?_
    rcases node_mem_dotStatements.mp htext with ⟨hsome, hid, -⟩ | hmem
    · exact absurd ⟨hsome, hid⟩ hother
    · exact h.label_eq hn hmem
  rw [dotNodeOf, hlabel, decide_eq_false hpoint, DotNode.plain]

omit h in
theorem dotNodeOf_startMarker {id : String} (hid : d.initial = some id) :
    dotNodeOf d.dotStatements startMarker = ⟨startMarker, true, ""⟩ := by
  have hids : startMarker ∉ d.exported.ids := by
    rw [ids_exported]
    simpa [hid] using hmarker
  have hsome : d.initial.isSome := by simp [hid]
  have hlabel : lastLabel (d.dotStatements.map DotStatement.call) startMarker = "" := by
    refine lastLabel_eq (node_mem_dotStatements.mpr (Or.inl ⟨hsome, rfl, rfl⟩)) fun text htext => ?_
    rcases node_mem_dotStatements.mp htext with ⟨-, -, rfl⟩ | hmem
    · rfl
    · exact absurd (List.mem_map_of_mem (f := Node.id) hmem) hids
  rw [dotNodeOf, hlabel, decide_eq_true (point_mem_dotStatements.mpr ⟨hsome, rfl⟩)]

/-- The point, and then the nodes of the diagram. -/
theorem nodes_ofStatements : (DotGraph.ofStatements d.dotStatements).nodes =
    d.initial.toList.map (fun _ => ⟨startMarker, true, ""⟩) ++ d.nodes.map .plain := by
  have hids : d.nodes.map Node.id = d.ids := d.ids_exported
  have hnodup := nodup_ids_of_sound h
  have hnodes : d.ids.map (dotNodeOf d.dotStatements) = d.nodes.map .plain := by
    rw [← hids, List.map_map]
    exact List.map_congr_left fun n hn => dotNodeOf_eq_plain h hmarker hn
  rw [(DotGraph.tells_ofStatements _).nodes, mentioned_dotStatements h]
  cases hi : d.initial with
  | none => simpa [eraseDups_of_nodup hnodup] using hnodes
  | some id =>
    have hnot : startMarker ∉ d.ids := by simpa [hi] using hmarker
    have hcons : (startMarker :: d.ids).Nodup := List.nodup_cons.mpr ⟨hnot, hnodup⟩
    have hpoint := dotNodeOf_startMarker hmarker hi
    simpa [eraseDups_of_nodup hcons, hpoint] using hnodes

theorem shows_ofStatements : (DotGraph.ofStatements d.dotStatements).Shows d := by
  have hnodes := nodes_ofStatements h hmarker
  have harrows : (DotGraph.ofStatements d.dotStatements).arrows = _ :=
    (DotGraph.tells_ofStatements _).arrows.trans d.filterMap_arrow?_dotStatements
  unfold DotGraph.Shows
  cases hi : d.initial with
  | none =>
    simp only [hi, Option.toList_none, List.map_nil, List.nil_append] at hnodes harrows ⊢
    exact ⟨.of_eq hnodes, harrows⟩
  | some id =>
    simp only [hi, Option.toList_some, List.map_singleton, List.singleton_append]
      at hnodes harrows ⊢
    have hnot : startMarker ∉ d.ids := by simpa [hi] using hmarker
    have hmark : DotArrow.touches ⟨startMarker, id, none⟩ startMarker = true := by
      simp [DotArrow.touches]
    have hedges : ∀ a ∈ d.edges.map DotArrow.labelled, a.touches startMarker = false := by
      intro a ha
      obtain ⟨e, he, rfl⟩ := List.mem_map.mp ha
      obtain ⟨hs, ht⟩ := h.ends e he
      rw [ids_exported] at hs ht
      simp only [DotArrow.touches, DotArrow.labelled, Bool.or_eq_false_iff, beq_eq_false_iff_ne]
      exact ⟨fun heq => hnot (heq ▸ hs), fun heq => hnot (heq ▸ ht)⟩
    have hkept : (DotGraph.ofStatements d.dotStatements).arrows.filter
        (fun a => !a.touches startMarker) = d.edges.map .labelled := by
      rw [harrows, List.filter_cons_of_neg (by simp [hmark]), List.filter_eq_self]
      exact fun a ha => by simp [hedges a ha]
    have hmarks : (DotGraph.ofStatements d.dotStatements).arrows.filter
        (fun a => a.touches startMarker) = [⟨startMarker, id, none⟩] := by
      rw [harrows, List.filter_cons_of_pos (by simp [hmark]), List.filter_eq_nil_iff.mpr]
      exact fun a ha => by simp [hedges a ha]
    exact ⟨⟨startMarker, true, ""⟩, rfl, hnot, .of_eq hnodes, hkept, hmarks⟩

omit hmarker in
/-- A node with the id of the marker is the point. -/
theorem length_nodes_of_mem (hsome : d.initial.isSome) (hid : startMarker ∈ d.ids) :
    (DotGraph.ofStatements d.dotStatements).nodes.length = d.nodeCount := by
  obtain ⟨id, hi⟩ := Option.isSome_iff_exists.mp hsome
  have hnodup := nodup_ids_of_sound h
  have hperm : (startMarker :: d.ids).eraseDups.Perm d.ids := by
    refine (List.perm_ext_iff_of_nodup (nodup_eraseDups _) hnodup).mpr fun i => ?_
    rw [List.mem_eraseDups, List.mem_cons, or_iff_right_of_imp]
    rintro rfl
    exact hid
  have hcount : d.ids.length = d.nodeCount := List.length_map _
  rw [(DotGraph.tells_ofStatements _).nodes, List.length_map, mentioned_dotStatements h, hi]
  exact hperm.length_eq.trans hcount

end Statements

/-- **A DOT text shows the diagram unless a node has the id of the marker.**  The text is read
as one graph, in which each id names one node.  The graph shows the diagram if and only if no
initial node is marked or no node of the diagram has the id of the marker.  There is one more
node in it than in the diagram if an initial node is marked and the marker's id is free, and
else there are as many. -/
theorem dot_shows_iff (name : String) (calls : List Call) :
    ∃ g : DotGraph, (∀ g' : DotGraph, g'.IsReadFrom (replay name calls).dot ↔ g' = g) ∧
      (g.nodes.map DotNode.id).Nodup ∧
      (g.Shows (replay name calls) ↔
        (replay name calls).initial = none ∨ startMarker ∉ (replay name calls).ids) ∧
      g.nodes.length = (replay name calls).nodeCount +
        if (replay name calls).initial.isSome ∧ startMarker ∉ (replay name calls).ids then 1
        else 0 := by
  have h := sound_exported name calls
  have hnodup : ((DotGraph.ofStatements (replay name calls).dotStatements).nodes.map
      DotNode.id).Nodup := by
    rw [(DotGraph.tells_ofStatements _).ids_eq]
    exact nodup_eraseDups _
  refine ⟨.ofStatements (replay name calls).dotStatements, fun _ => DotGraph.isReadFrom_dot_iff,
    hnodup, ?_⟩
  by_cases hmarker : (replay name calls).initial = none ∨ startMarker ∉ (replay name calls).ids
  · have hshows := shows_ofStatements h hmarker
    refine ⟨iff_of_true hshows hmarker, ?_⟩
    rw [hshows.length_nodes]
    rcases hmarker with hnone | hfree
    · simp [hnone]
    · simp [hfree]
  · obtain ⟨hinitial, hid⟩ := not_or.mp hmarker
    have hsome := Option.isSome_iff_ne_none.mpr hinitial
    have hlength := length_nodes_of_mem h hsome (not_not.mp hid)
    refine ⟨iff_of_false (fun hshows => ?_) hmarker, ?_⟩
    · have hmore := hshows.length_nodes
      rw [hlength, if_pos hsome] at hmore
      omega
    · rw [hlength, if_neg fun hfree => hid hfree.2, Nat.add_zero]

/-- A drawing with a node that has the id of the marker. -/
def usurped : List Call :=
  [.node "A" "A", .node "__start__" "S", .initial "A", .edge "A" "__start__" "0"]

/-- The node is drawn as the point, with the arrow of the mark as one of its own. -/
theorem dot_usurped : ∃ g : DotGraph,
    (∀ g' : DotGraph, g'.IsReadFrom (replay "g" usurped).dot ↔ g' = g) ∧
    g.nodes = [⟨"__start__", true, "S"⟩, ⟨"A", false, "A"⟩] ∧
    g.arrows = [⟨"__start__", "A", none⟩, ⟨"A", "__start__", some "0"⟩] ∧
    (replay "g" usurped).initial = some "A" ∧ (replay "g" usurped).nodeCount = 2 ∧
    ¬g.Shows (replay "g" usurped) := by
  refine ⟨.ofStatements (replay "g" usurped).dotStatements, fun _ => DotGraph.isReadFrom_dot_iff,
    by decide, by decide, by decide, by decide, fun hshows => ?_⟩
  exact absurd hshows.length_nodes (by decide)

end Diagram

end Transducers
