import Mathlib.Data.List.Induction
import Transducers.Diagram.Basic
import Transducers.Proofs.FirstOccurrences

/-!
# What a drawing makes

Everything in a diagram can be told from the calls that made it, without the graph.

* `mentioned`, `drawnEdges`, `lastLabel`, `lastRank`, `lastInitial`: what a drawing says;
* `Depicts`: a diagram holds these ids, labels, flags and arrows, each where its place
  says;
* `Depicts.push`, `Depicts.modify`: what one change of the graph does;
* `Records`: a diagram holds what a drawing says;
* `Records.play`, `records_replay`: one call, and a whole drawing by induction;
* `replay_reading`: what a diagram shows.
-/

namespace Transducers

/-! ## Reading a drawing -/

namespace Call

/-- The ids in a call, in order. -/
@[simp] def mentions : Call → List String
  | node id _ => [id]
  | edge source target _ => [source, target]
  | rank _ => []
  | initial id => [id]

def edge? : Call → Option Edge
  | edge source target label => some ⟨source, target, label⟩
  | _ => none

/-- The label that a call gives to a node. -/
def labelOf? (id : String) : Call → Option String
  | node id' label => if id' = id then some label else none
  | _ => none

def rank? : Call → Option Direction
  | rank direction => some direction
  | _ => none

def initial? : Call → Option String
  | initial id => some id
  | _ => none

end Call

/-- The ids in a drawing, each at its first mention. -/
def mentioned (calls : List Call) : List String := (calls.flatMap Call.mentions).eraseDups

/-- The arrows of a drawing, one for each call that draws one. -/
def drawnEdges (calls : List Call) : List Edge := calls.filterMap Call.edge?

/-- The label of a node: the last that it is given, or its id. -/
def lastLabel (calls : List Call) (id : String) : String :=
  (calls.filterMap (Call.labelOf? id)).getLast?.getD id

def lastRank (calls : List Call) : Direction :=
  (calls.filterMap Call.rank?).getLast?.getD .topToBottom

def lastInitial (calls : List Call) : Option String := (calls.filterMap Call.initial?).getLast?

/-- A node has the label that all calls for it agree on. -/
theorem lastLabel_eq {calls : List Call} {id label : String} (h : .node id label ∈ calls)
    (hall : ∀ text, .node id text ∈ calls → text = label) : lastLabel calls id = label := by
  have hmem : label ∈ calls.filterMap (Call.labelOf? id) :=
    List.mem_filterMap.mpr ⟨_, h, by simp [Call.labelOf?]⟩
  obtain ⟨last, hlast⟩ := Option.isSome_iff_exists.mp
    (List.getLast?_isSome.mpr (List.ne_nil_of_mem hmem))
  obtain ⟨c, hc, hlabel⟩ := List.mem_filterMap.mp (List.mem_of_getLast? hlast)
  have hnode : c = .node id last := by
    cases c <;> simp_all [Call.labelOf?]
  rw [lastLabel, hlast, Option.getD_some]
  exact hall last (hnode ▸ hc)

/-- A node that no call labels is labelled with its id. -/
theorem lastLabel_eq_self {calls : List Call} {id : String}
    (h : ∀ text, .node id text ∉ calls) : lastLabel calls id = id := by
  have hnone : calls.filterMap (Call.labelOf? id) = [] := by
    rw [List.filterMap_eq_nil_iff]
    intro c hc
    cases c with
    | node id' text =>
      have hne : id' ≠ id := fun heq => h text (heq ▸ hc)
      simp [Call.labelOf?, hne]
    | _ => rfl
  rw [lastLabel, hnone]
  rfl

/-- Calls that name only ids mentioned before them mention nothing new. -/
theorem mentioned_append_of_subset {calls more : List Call}
    (h : more.flatMap Call.mentions ⊆ calls.flatMap Call.mentions) :
    mentioned (calls ++ more) = mentioned calls := by
  rw [mentioned, List.flatMap_append, eraseDups_append_of_subset h, mentioned]

theorem getLast?_filterMap_concat {α β : Type} (f : α → Option β) (l : List α) (a : α) :
    ((l ++ [a]).filterMap f).getLast? = (f a).or (l.filterMap f).getLast? := by
  rw [List.filterMap_append, List.getLast?_append]
  cases h : f a <;> simp [h]

/-! One more call. -/

theorem mentioned_concat (calls : List Call) (c : Call) : mentioned (calls ++ [c]) =
    c.mentions.foldl (fun ids id => declare id ids) (mentioned calls) := by
  unfold mentioned
  rw [List.flatMap_append, eraseDups_append_declare]
  simp

theorem drawnEdges_concat (calls : List Call) (c : Call) :
    drawnEdges (calls ++ [c]) = drawnEdges calls ++ c.edge?.toList := by
  rw [drawnEdges, List.filterMap_append]
  cases h : c.edge? <;> simp [drawnEdges, h]

theorem lastLabel_concat (calls : List Call) (c : Call) (id : String) :
    lastLabel (calls ++ [c]) id = (c.labelOf? id).getD (lastLabel calls id) := by
  rw [lastLabel, getLast?_filterMap_concat]
  cases c.labelOf? id <;> rfl

theorem lastRank_concat (calls : List Call) (c : Call) :
    lastRank (calls ++ [c]) = c.rank?.getD (lastRank calls) := by
  rw [lastRank, getLast?_filterMap_concat]
  cases c.rank? <;> rfl

theorem lastInitial_concat (calls : List Call) (c : Call) :
    lastInitial (calls ++ [c]) = c.initial?.or (lastInitial calls) :=
  getLast?_filterMap_concat ..

/-! ## What the graph holds -/

namespace Diagram

/-- The diagram has these ids in this order, with these labels and flags, and these
arrows; its table finds the ids, and its arrows join their places.  An id that it does
not have would be labelled with itself and have no flag. -/
structure Depicts (d : Diagram) (ids : List String) (label : String → String)
    (flagged : String → Bool) (edges : List Edge) : Prop where
  nodup : ids.Nodup
  vertices : d.vertices = ids.map fun id => ⟨id, label id, flagged id⟩
  places : ∀ id, d.places.get? id = if id ∈ ids then some (ids.idxOf id) else none
  arrows : d.arrows = edges.map fun e => ⟨ids.idxOf e.source, ids.idxOf e.target, e.label⟩
  ends : ∀ e ∈ edges, e.source ∈ ids ∧ e.target ∈ ids
  plain : ∀ id, id ∉ ids → label id = id ∧ flagged id = false

namespace Depicts

variable {d : Diagram} {ids : List String} {label : String → String} {flagged : String → Bool}
  {edges : List Edge} (h : d.Depicts ids label flagged edges)
include h

/-! Changes of the graph. -/

/-- A new vertex goes to the end, and gets the flag that its id has. -/
theorem push {id : String} (hid : id ∉ ids) (text : String) :
    (d.push id text).Depicts (declare id ids) (Function.update label id text) flagged edges where
  nodup := nodup_declare h.nodup
  vertices := by
    have hlabels : ids.map (fun a => (⟨a, label a, flagged a⟩ : Vertex)) =
        ids.map fun a => ⟨a, Function.update label id text a, flagged a⟩ := by
      refine List.map_congr_left fun a ha => ?_
      have hne : a ≠ id := fun heq => hid (heq ▸ ha)
      rw [Function.update_of_ne hne]
    simp only [Diagram.push, declare, if_neg hid, List.map_append, List.map_singleton, h.vertices,
      hlabels, Function.update_self, (h.plain id hid).2]
  places := by
    intro a
    have hlength : d.vertices.length = ids.length := by rw [h.vertices, List.length_map]
    simp only [Diagram.push, OrderedMap.get?_insert, h.places, mem_declare, hlength]
    by_cases ha : id = a
    · subst ha
      simp [declare, hid, List.idxOf_append_of_notMem]
    · have hne : a ≠ id := fun heq => ha heq.symm
      by_cases hmem : a ∈ ids
      · simp [ha, hmem, idxOf_declare hmem]
      · simp [ha, hmem, hne]
  arrows := by
    refine h.arrows.trans (List.map_congr_left fun e he => ?_)
    obtain ⟨hs, ht⟩ := h.ends e he
    rw [idxOf_declare hs, idxOf_declare ht]
  ends := by
    intro e he
    obtain ⟨hs, ht⟩ := h.ends e he
    simp [hs, ht]
  plain := by
    intro a ha
    rw [mem_declare, not_or] at ha
    rw [Function.update_of_ne ha.2]
    exact h.plain a ha.1

/-- A change of one vertex changes what belongs to one id. -/
theorem modify {id : String} (hid : id ∈ ids) {change : Vertex → Vertex}
    {label' : String → String} {flagged' : String → Bool}
    (hchange : change ⟨id, label id, flagged id⟩ = ⟨id, label' id, flagged' id⟩)
    (hother : ∀ a, a ≠ id → label' a = label a ∧ flagged' a = flagged a) :
    ({ d with vertices := d.vertices.modify (ids.idxOf id) change }).Depicts ids label' flagged'
      edges where
  nodup := h.nodup
  vertices := by
    simp only [h.vertices, modify_idxOf h.nodup hid]
    refine List.map_congr_left fun a _ => ?_
    by_cases ha : a = id
    · rw [if_pos ha, ha, hchange]
    · obtain ⟨hl, hf⟩ := hother a ha
      rw [if_neg ha, hl, hf]
  places := h.places
  arrows := h.arrows
  ends := h.ends
  plain := by
    intro a ha
    obtain ⟨hl, hf⟩ := hother a fun heq => ha (heq ▸ hid)
    rw [hl, hf]
    exact h.plain a ha

theorem relabel {id : String} (hid : id ∈ ids) (text : String) :
    (d.relabel (ids.idxOf id) text).Depicts ids (Function.update label id text) flagged edges :=
  h.modify hid (by simp) fun _ ha => ⟨Function.update_of_ne ha .., rfl⟩

theorem flag {id : String} (hid : id ∈ ids) (initial : Bool) :
    (d.flag (ids.idxOf id) initial).Depicts ids label (Function.update flagged id initial)
      edges :=
  h.modify hid (by simp) fun _ ha => ⟨rfl, Function.update_of_ne ha ..⟩

/-- The direction and the place of the initial node are not part of the graph. -/
theorem congr {d' : Diagram} (hv : d'.vertices = d.vertices) (hp : d'.places = d.places)
    (ha : d'.arrows = d.arrows) : d'.Depicts ids label flagged edges where
  nodup := h.nodup
  vertices := hv.trans h.vertices
  places := fun id => (congrArg (OrderedMap.get? · id) hp).trans (h.places id)
  arrows := ha.trans h.arrows
  ends := h.ends
  plain := h.plain

/-! Calls. -/

theorem addNode (id text : String) :
    (d.addNode id text).Depicts (declare id ids) (Function.update label id text) flagged edges := by
  unfold Diagram.addNode
  by_cases hid : id ∈ ids
  · have hdeclare : declare id ids = ids := if_pos hid
    rw [h.places, if_pos hid, hdeclare]
    exact h.relabel hid text
  · rw [h.places, if_neg hid]
    exact h.push hid text

/-- A node that is made on the way is labelled with its id. -/
theorem ensureNode (id : String) :
    (d.ensureNode id).1.Depicts (declare id ids) label flagged edges ∧
      (d.ensureNode id).2 = (declare id ids).idxOf id := by
  unfold Diagram.ensureNode
  by_cases hid : id ∈ ids
  · have hdeclare : declare id ids = ids := if_pos hid
    rw [h.places, if_pos hid, hdeclare]
    exact ⟨h, rfl⟩
  · rw [h.places, if_neg hid]
    constructor
    · have hlabel : Function.update label id id = label :=
        Function.update_eq_self_iff.mpr (h.plain id hid).1.symm
      have hpush := h.push hid id
      rwa [hlabel] at hpush
    · simp [declare, hid, h.vertices, List.idxOf_append_of_notMem]

theorem addEdge (source target text : String) :
    (d.addEdge source target text).Depicts (declare target (declare source ids)) label flagged
      (edges ++ [⟨source, target, text⟩]) := by
  obtain ⟨hsource, hi⟩ := h.ensureNode source
  obtain ⟨hboth, hj⟩ := hsource.ensureNode target
  constructor
  case nodup => exact hboth.nodup
  case vertices => exact hboth.vertices
  case places => exact hboth.places
  case arrows =>
    have hs : source ∈ declare source ids := mem_declare.mpr (Or.inr rfl)
    simp only [Diagram.addEdge, hboth.arrows, List.map_append, List.map_singleton, hi, hj,
      idxOf_declare hs]
  case ends =>
    intro e he
    rcases List.mem_append.mp he with he | he
    · exact hboth.ends e he
    · rw [List.mem_singleton.mp he]
      simp
  case plain => exact hboth.plain

/-! What it shows. -/

theorem ids_eq : d.ids = ids := by
  rw [Diagram.ids, h.vertices, List.map_map]
  exact List.map_id ids

theorem vertex_at {id : String} (hid : id ∈ ids) :
    d.vertices[ids.idxOf id]? = some ⟨id, label id, flagged id⟩ := by
  rw [h.vertices, List.getElem?_map, List.getElem?_idxOf hid]
  rfl

theorem idAt_eq {id : String} (hid : id ∈ ids) : d.idAt (ids.idxOf id) = id := by
  simp [idAt, h.vertex_at hid]

theorem index?_eq_some_iff {id : String} {place : Nat} :
    d.index? id = some place ↔ ids[place]? = some id := by
  rw [index?, h.places]
  constructor
  · intro hp
    split at hp
    · rename_i hid
      cases hp
      exact List.getElem?_idxOf hid
    · cases hp
  · intro hid
    obtain ⟨hlt, rfl⟩ := List.getElem?_eq_some_iff.mp hid
    rw [if_pos (List.getElem_mem hlt), h.nodup.idxOf_getElem]

theorem edge_eq {e : Edge} (he : e ∈ edges) :
    d.edge ⟨ids.idxOf e.source, ids.idxOf e.target, e.label⟩ = e := by
  obtain ⟨hs, ht⟩ := h.ends e he
  simp [Diagram.edge, h.idAt_eq hs, h.idAt_eq ht]

theorem edges_eq : d.edges = edges := by
  rw [Diagram.edges, h.arrows, List.map_map]
  exact (List.map_congr_left fun e he => h.edge_eq he).trans (List.map_id edges)

theorem arrowsFrom_eq {id : String} {place : Nat} (hid : ids[place]? = some id) :
    (d.arrowsFrom place).map d.edge = edges.filter (·.source = id) := by
  have hplace : ∀ e ∈ edges, ids.idxOf e.source = place ↔ e.source = id := by
    intro e he
    have hp : ids[ids.idxOf e.source]? = some e.source := List.getElem?_idxOf (h.ends e he).1
    constructor
    · intro heq
      rw [heq, hid, Option.some.injEq] at hp
      exact hp.symm
    · intro heq
      obtain ⟨hlt, rfl⟩ := List.getElem?_eq_some_iff.mp hid
      rw [heq, h.nodup.idxOf_getElem]
  rw [arrowsFrom, h.arrows, List.filter_map, List.map_map]
  have hfilter : edges.filter ((fun a : Arrow => decide (a.source = place)) ∘
      fun e => ⟨ids.idxOf e.source, ids.idxOf e.target, e.label⟩) =
      edges.filter (·.source = id) :=
    List.filter_congr fun e he => by simp [hplace e he]
  rw [hfilter]
  refine (List.map_congr_left fun e he => ?_).trans (List.map_id _)
  exact h.edge_eq (List.mem_filter.mp he).1

end Depicts

/-! ## What the diagram records -/

/-- The diagram holds what the drawing says. -/
structure Records (d : Diagram) (calls : List Call) : Prop where
  depicts : d.Depicts (mentioned calls) (lastLabel calls)
    (fun id => lastInitial calls == some id) (drawnEdges calls)
  rank : d.rank = lastRank calls
  start : d.start = (lastInitial calls).map fun id => (mentioned calls).idxOf id

theorem records_empty (name : String) : (empty name).Records [] where
  depicts := {
    nodup := nodup_eraseDups _
    vertices := rfl
    places := by simp [empty, mentioned]
    arrows := rfl
    ends := by simp [drawnEdges]
    plain := by simp [lastLabel, lastInitial] }
  rank := rfl
  start := rfl

namespace Records

variable {d : Diagram} {calls : List Call} (h : d.Records calls)
include h

theorem mem_mentioned {id : String} (hid : lastInitial calls = some id) : id ∈ mentioned calls := by
  by_contra hn
  have hflag := (h.depicts.plain id hn).2
  simp [hid] at hflag

/-- The place of the initial node stays when ids are added. -/
theorem start_declare (more : List String) : d.start = (lastInitial calls).map fun a =>
    (more.foldl (fun ids id => declare id ids) (mentioned calls)).idxOf a := by
  rw [h.start]
  cases hi : lastInitial calls with
  | none => rfl
  | some a => simp [idxOf_foldl_declare (h.mem_mentioned hi)]

/-- Without its flag, no node has one. -/
theorem unflagged : d.unflagged.Depicts (mentioned calls) (lastLabel calls) (fun _ => false)
    (drawnEdges calls) := by
  unfold Diagram.unflagged
  rw [h.start]
  cases hi : lastInitial calls with
  | none => simpa [hi] using h.depicts
  | some a =>
    have hflag := h.depicts.flag (h.mem_mentioned hi) false
    have hnone : Function.update (fun id => lastInitial calls == some id) a false =
        fun _ => false := by
      funext b
      by_cases hb : b = a
      · simp [hb]
      · have hne : a ≠ b := fun heq => hb heq.symm
        simp [hb, hi, hne]
    rwa [hnone] at hflag

/-- **One call.** -/
theorem play (c : Call) : (sink.play d c).Records (calls ++ [c]) := by
  cases c with
  | node id text =>
    have hlabel : lastLabel (calls ++ [.node id text]) =
        Function.update (lastLabel calls) id text := by
      funext a
      rw [lastLabel_concat]
      by_cases ha : a = id
      · simp [Call.labelOf?, ha]
      · have hne : id ≠ a := fun heq => ha heq.symm
        simp [Call.labelOf?, ha, hne]
    constructor
    case depicts =>
      rw [hlabel, mentioned_concat, drawnEdges_concat, lastInitial_concat]
      simpa [sink, Sink.play, Call.edge?, Call.initial?] using h.depicts.addNode id text
    case rank =>
      rw [lastRank_concat]
      exact (rank_addNode d id text).trans h.rank
    case start =>
      rw [lastInitial_concat, mentioned_concat]
      exact (start_addNode d id text).trans (h.start_declare [id])
  | edge source target text =>
    have hlabel : lastLabel (calls ++ [.edge source target text]) = lastLabel calls :=
      funext fun a => lastLabel_concat calls _ a
    constructor
    case depicts =>
      rw [hlabel, mentioned_concat, drawnEdges_concat, lastInitial_concat]
      simpa [sink, Sink.play, Call.edge?, Call.initial?] using h.depicts.addEdge source target text
    case rank =>
      rw [lastRank_concat]
      exact Eq.trans (by simp [sink, Sink.play, Diagram.addEdge]) h.rank
    case start =>
      rw [lastInitial_concat, mentioned_concat]
      exact Eq.trans (by simp [sink, Sink.play, Diagram.addEdge]) (h.start_declare [source, target])
  | rank direction =>
    have hlabel : lastLabel (calls ++ [.rank direction]) = lastLabel calls :=
      funext fun a => lastLabel_concat calls _ a
    constructor
    case depicts =>
      rw [hlabel, mentioned_concat, drawnEdges_concat, lastInitial_concat]
      simp only [Call.edge?, Option.toList_none, List.append_nil]
      exact h.depicts.congr rfl rfl rfl
    case rank =>
      rw [lastRank_concat]
      rfl
    case start =>
      rw [lastInitial_concat, mentioned_concat]
      exact h.start
  | initial id =>
    have hlabel : lastLabel (calls ++ [.initial id]) = lastLabel calls :=
      funext fun a => lastLabel_concat calls _ a
    obtain ⟨hfound, hplace⟩ := h.unflagged.ensureNode id
    have hid : id ∈ declare id (mentioned calls) := mem_declare.mpr (Or.inr rfl)
    constructor
    case depicts =>
      rw [hlabel, mentioned_concat, drawnEdges_concat, lastInitial_concat]
      have honly : (fun a => (Call.initial id).initial?.or (lastInitial calls) == some a) =
          Function.update (fun _ => false) id true := by
        funext a
        by_cases ha : a = id
        · simp [Call.initial?, ha]
        · have hne : id ≠ a := fun heq => ha heq.symm
          simp [Call.initial?, ha, hne]
      have hd := hfound.flag hid true
      rw [← hplace] at hd
      rw [honly]
      simp only [Call.edge?, Option.toList_none, List.append_nil]
      exact hd.congr rfl rfl rfl
    case rank =>
      rw [lastRank_concat]
      exact Eq.trans (by simp [sink, Sink.play, Diagram.markInitial, Diagram.flag]) h.rank
    case start =>
      rw [lastInitial_concat, mentioned_concat]
      simp only [Diagram.sink, Sink.play, Diagram.markInitial, hplace]
      rfl

end Records

/-- **A whole drawing.** -/
theorem records_replay (name : String) (calls : List Call) : (replay name calls).Records calls := by
  induction calls using List.reverseRecOn with
  | nil => exact records_empty name
  | append_singleton calls c ih =>
    rw [replay, Sink.run_append]
    exact ih.play c

theorem name_replay (name : String) (calls : List Call) : (replay name calls).name = name := by
  induction calls using List.reverseRecOn with
  | nil => rfl
  | append_singleton calls c ih =>
    rw [replay, Sink.run_append]
    exact (name_play _ c).trans ih

theorem initial_replay (name : String) (calls : List Call) :
    (replay name calls).initial = lastInitial calls := by
  have h := records_replay name calls
  rw [initial, h.start]
  cases hi : lastInitial calls with
  | none => rfl
  | some id => simp [h.depicts.vertex_at (h.mem_mentioned hi)]

/-- **What a diagram shows.**  Its nodes are the ids in the drawing, each at its first
mention, and labelled with the last label that it was given, or else with itself.  Its
arrows are those that were drawn, in order, and so are the arrows of each source.  Its
direction is the last one set, and its initial node the last one marked, which alone has
the flag.  The place that the diagram finds for an id is that of the id among the nodes. -/
theorem replay_reading (name : String) (calls : List Call) :
    (replay name calls).name = name ∧
    -- nodes
    (replay name calls).ids = (calls.flatMap Call.mentions).eraseDups ∧
    (replay name calls).ids.Nodup ∧
    (∀ v ∈ (replay name calls).vertices, v.label = lastLabel calls v.id) ∧
    (∀ id place, (replay name calls).index? id = some place ↔
      (replay name calls).ids[place]? = some id) ∧
    -- arrows
    (replay name calls).edges = calls.filterMap Call.edge? ∧
    (∀ id place, (replay name calls).index? id = some place →
      ((replay name calls).arrowsFrom place).map (replay name calls).edge =
        (calls.filterMap Call.edge?).filter (·.source = id)) ∧
    -- direction
    (replay name calls).rank = lastRank calls ∧
    -- initial node
    (replay name calls).start = (lastInitial calls).bind (replay name calls).index? ∧
    (replay name calls).initial = lastInitial calls ∧
    (∀ v ∈ (replay name calls).vertices, v.initial = true ↔ lastInitial calls = some v.id) := by
  have h := records_replay name calls
  have hids := h.depicts.ids_eq
  refine ⟨name_replay name calls, hids, hids ▸ h.depicts.nodup, ?_, ?_, h.depicts.edges_eq, ?_,
    h.rank, ?_, initial_replay name calls, ?_⟩
  · intro v hv
    rw [h.depicts.vertices, List.mem_map] at hv
    obtain ⟨id, -, rfl⟩ := hv
    rfl
  · intro id place
    rw [hids]
    exact h.depicts.index?_eq_some_iff
  · intro id place hplace
    exact h.depicts.arrowsFrom_eq (h.depicts.index?_eq_some_iff.mp hplace)
  · rw [h.start]
    cases hi : lastInitial calls with
    | none => rfl
    | some id => simp [index?, h.depicts.places, h.mem_mentioned hi]
  · intro v hv
    rw [h.depicts.vertices, List.mem_map] at hv
    obtain ⟨id, -, rfl⟩ := hv
    simp

/-- A node that an arrow makes and a later call labels, and a flag that moves. -/
def revised : List Call :=
  [.edge "B" "A" "0", .initial "A", .node "A" "A'", .edge "A" "A" "1", .initial "B",
    .edge "A" "B" "0"]

theorem replay_reading_revised :
    (replay "g" revised).index? "A" = some 1 ∧
    ((replay "g" revised).arrowsFrom 1).map (replay "g" revised).edge =
      (revised.filterMap Call.edge?).filter (·.source = "A") ∧
    (⟨"A", "A'", false⟩ : Vertex) ∈ (replay "g" revised).vertices ∧
    lastLabel revised "A" = "A'" ∧ lastInitial revised ≠ some "A" := by
  obtain ⟨-, -, -, hlabel, -, -, hfrom, -, -, -, hinitial⟩ := replay_reading "g" revised
  have hplace : (replay "g" revised).index? "A" = some 1 := by decide
  have hmem : (⟨"A", "A'", false⟩ : Vertex) ∈ (replay "g" revised).vertices := by decide
  refine ⟨hplace, hfrom "A" 1 hplace, hmem, (hlabel _ hmem).symm, fun hi => ?_⟩
  exact absurd ((hinitial _ hmem).mpr hi) (by decide)

end Diagram

end Transducers
