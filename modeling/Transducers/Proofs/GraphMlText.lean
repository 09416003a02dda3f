import Transducers.Diagram.Export
import Transducers.Diagram.GraphMl
import Transducers.Proofs.EscapedText
import Transducers.Proofs.Redrawing

/-!
# A GraphML text has one reading

A name may hold line breaks, so lines say nothing here.  But no escaped name has a quote or
an angle bracket, so an attribute ends at its quote and a label at the next tag, whatever
they look like.  The initial node is told from the flags of the nodes.

* `flatMap_xmlEscape`: escaping is five replacements, ampersands first;
* `xmlEscaped_append_inj`: an escaped text ends where markup begins;
* `Diagram.graphMlNode_inj`, `Diagram.graphMlEdge_inj`: elements, told from their text;
* `Diagram.graphMl_inj`: a text tells the name, the vertices and the arrows;
* `Diagram.vertices_replay`, `Diagram.initial_eq_some_iff`: the flags, for drawn diagrams;
* `Diagram.graphMl_unambiguous`: which diagrams have the same text.
-/

namespace Transducers

/-! ## Escaped names -/

/-- Escaping is five replacements one after another, of which that of the ampersand is the
first, since the others bring in new ones. -/
theorem flatMap_xmlEscape (s : List Char) : s.flatMap xmlEscape =
    replaced '\x27' ['&', 'a', 'p', 'o', 's', ';'] (replaced '"' ['&', 'q', 'u', 'o', 't', ';']
      (replaced '>' ['&', 'g', 't', ';'] (replaced '<' ['&', 'l', 't', ';']
        (replaced '&' ['&', 'a', 'm', 'p', ';'] s)))) := by
  induction s with
  | nil => rfl
  | cons c s ih =>
    have hone : xmlEscape c =
        replaced '\x27' ['&', 'a', 'p', 'o', 's', ';']
          (replaced '"' ['&', 'q', 'u', 'o', 't', ';'] (replaced '>' ['&', 'g', 't', ';']
            (replaced '<' ['&', 'l', 't', ';'] (replaced '&' ['&', 'a', 'm', 'p', ';'] [c])))) := by
      unfold xmlEscape
      split <;> simp_all [replaced]
    rw [List.flatMap_cons, ih, hone]
    simp only [← replaced_append]
    rfl

example : xmlEscaped "</data>&amp;" = "&lt;/data&gt;&amp;amp;" := by decide

theorem xmlEscape_append_inj {c d : Char} {r u : List Char}
    (h : xmlEscape c ++ r = xmlEscape d ++ u) : c = d ∧ r = u := by
  unfold xmlEscape at h
  split at h <;> split at h <;> simp only [List.cons_append, List.nil_append, List.cons.injEq] at h
  all_goals grind

/-- The text goes on with a quote or an angle bracket. -/
def BeginsMarkup (s : String) : Prop := s.toList.head? = some '"' ∨ s.toList.head? = some '<'

instance (s : String) : Decidable (BeginsMarkup s) :=
  inferInstanceAs (Decidable (s.toList.head? = some '"' ∨ s.toList.head? = some '<'))

theorem BeginsMarkup.append {s : String} (h : BeginsMarkup s) (t : String) :
    BeginsMarkup (s ++ t) := by
  unfold BeginsMarkup at h ⊢
  rw [String.toList_append, List.head?_append]
  rcases h with h | h
  · exact Or.inl (by rw [h]; rfl)
  · exact Or.inr (by rw [h]; rfl)

theorem xmlEscape_append_ne {c : Char} {s : String} (h : BeginsMarkup s) (r : List Char) :
    xmlEscape c ++ r ≠ s.toList := by
  intro heq
  unfold BeginsMarkup at h
  rw [← heq] at h
  unfold xmlEscape at h
  split at h <;> simp_all

/-- **An escaped text ends where markup begins.** -/
theorem xmlEscaped_append_inj {s t r u : String} (hr : BeginsMarkup r) (hu : BeginsMarkup u)
    (h : xmlEscaped s ++ r = xmlEscaped t ++ u) : s = t ∧ r = u := by
  replace h := congrArg String.toList h
  simp only [xmlEscaped, String.toList_append, String.toList_ofList] at h
  obtain ⟨hs, hrest⟩ := flatMap_append_inj xmlEscape_append_inj
    (fun _ _ => xmlEscape_append_ne hu) (fun _ _ => xmlEscape_append_ne hr) h
  exact ⟨String.toList_inj.mp hs, String.toList_inj.mp hrest⟩

/-- An attribute or a label before two texts that begin with the same markup. -/
theorem xmlEscaped_append_markup_inj {s t markup r u : String} (hm : BeginsMarkup markup)
    (h : xmlEscaped s ++ (markup ++ r) = xmlEscaped t ++ (markup ++ u)) : s = t ∧ r = u := by
  obtain ⟨hs, hrest⟩ := xmlEscaped_append_inj (hm.append r) (hm.append u) h
  exact ⟨hs, (String.append_right_inj _).mp hrest⟩

/-- A number ends at the first quote after it. -/
theorem number_append_inj {m n : Nat} {r u : String}
    (h : toString m ++ ("\"" ++ r) = toString n ++ ("\"" ++ u)) : m = n ∧ r = u := by
  have hdigits (k : Nat) : '"' ∉ (toString k).toList := by
    rw [Nat.toString_eq_repr, Nat.toList_repr]
    exact fun hmem => absurd (Nat.isDigit_of_mem_toDigits (by decide) (by decide) hmem) (by decide)
  have hvalue (k : Nat) : Nat.ofDigitChars 10 (toString k).toList 0 = k := by
    rw [Nat.toString_eq_repr, Nat.toList_repr, Nat.ofDigitChars_ten_toDigits]
  replace h := congrArg String.toList h
  simp only [String.toList_append] at h
  obtain ⟨hnumber, hrest⟩ := append_cons_inj (hdigits m) (hdigits n) h
  refine ⟨?_, String.toList_inj.mp hrest⟩
  rw [← hvalue m, ← hvalue n, hnumber]

theorem flag_append_inj {a b : Bool} {r u : String} (h : toString a ++ r = toString b ++ u) :
    a = b ∧ r = u := by
  cases a <;> cases b
  case false.false => exact ⟨rfl, (String.append_right_inj _).mp h⟩
  case true.true => exact ⟨rfl, (String.append_right_inj _).mp h⟩
  all_goals exact absurd (congrArg String.toList h) (by simp [toString])

namespace Diagram

/-! ## Elements -/

/-- An element of a node: what is told of the node, and the markup between. -/
theorem unlines_graphMlNode (v : Vertex) : unlines (graphMlNode v) =
    "    <node id=\"" ++ (xmlEscaped v.id ++ ("\">\n      <data key=\"label\">" ++
      (xmlEscaped v.label ++ ("</data>\n      <data key=\"initial\">" ++
        (toString v.initial ++ "</data>\n    </node>\n"))))) := by
  have htext (s : String) : toString s = s := rfl
  rw [← String.toList_inj]
  simp [graphMlNode, unlines, htext]

theorem unlines_graphMlEdge (e : Edge) (number : Nat) : unlines (graphMlEdge e number) =
    "    <edge id=\"e" ++ (toString number ++ ("\"" ++ (" source=\"" ++ (xmlEscaped e.source ++
      ("\" target=\"" ++ (xmlEscaped e.target ++ ("\">\n      <data key=\"edge_label\">" ++
        (xmlEscaped e.label ++ "</data>\n    </edge>\n")))))))) := by
  have htext (s : String) : toString s = s := rfl
  rw [← String.toList_inj]
  simp [graphMlEdge, unlines, htext]

theorem graphMlNode_inj {v w : Vertex} {r u : String}
    (h : unlines (graphMlNode v) ++ r = unlines (graphMlNode w) ++ u) : v = w ∧ r = u := by
  rw [unlines_graphMlNode, unlines_graphMlNode] at h
  simp only [String.append_assoc, String.append_right_inj] at h
  obtain ⟨hid, h⟩ := xmlEscaped_append_markup_inj (by decide) h
  obtain ⟨hlabel, h⟩ := xmlEscaped_append_markup_inj (by decide) h
  obtain ⟨hinitial, h⟩ := flag_append_inj h
  refine ⟨?_, (String.append_right_inj _).mp h⟩
  cases v
  cases w
  simp only [Vertex.mk.injEq]
  exact ⟨hid, hlabel, hinitial⟩

theorem graphMlEdge_inj {e f : Edge} {m n : Nat} {r u : String}
    (h : unlines (graphMlEdge e m) ++ r = unlines (graphMlEdge f n) ++ u) :
    (e, m) = (f, n) ∧ r = u := by
  rw [unlines_graphMlEdge, unlines_graphMlEdge] at h
  simp only [String.append_assoc, String.append_right_inj] at h
  obtain ⟨hnumber, h⟩ := number_append_inj h
  obtain ⟨hsource, h⟩ := xmlEscaped_append_markup_inj (by decide) ((String.append_right_inj _).mp h)
  obtain ⟨htarget, h⟩ := xmlEscaped_append_markup_inj (by decide) h
  obtain ⟨hlabel, h⟩ := xmlEscaped_append_markup_inj (by decide) h
  refine ⟨?_, h⟩
  cases e
  cases f
  simp only [Prod.mk.injEq, Edge.mk.injEq]
  exact ⟨⟨hsource, htarget, hlabel⟩, hnumber⟩

/-! ## Documents -/

/-- What stands after the arrows. -/
def graphMlFooter : List String := ["  </graph>", "</graphml>"]

/-- The elements of arrows, and what stands after them. -/
def graphMlArrows (numbered : List (Edge × Nat)) : List String :=
  (numbered.flatMap fun (e, number) => graphMlEdge e number) ++ graphMlFooter

/-- Elements are told apart by the first letter of their tags. -/
theorem graphMlEdge_append_ne (e : Edge) (number : Nat) (r : String) :
    unlines (graphMlEdge e number) ++ r ≠ unlines graphMlFooter := by
  rw [unlines_graphMlEdge]
  exact fun h => absurd (congrArg String.toList h) (by simp [graphMlFooter, unlines])

theorem graphMlNode_append_ne (v : Vertex) (r : String) (numbered : List (Edge × Nat)) :
    unlines (graphMlNode v) ++ r ≠ unlines (graphMlArrows numbered) := by
  intro h
  replace h := congrArg String.toList h
  rw [unlines_graphMlNode] at h
  cases numbered with
  | nil => simp [graphMlArrows, graphMlFooter, unlines] at h
  | cons a numbered =>
    rw [graphMlArrows, List.flatMap_cons, List.append_assoc, unlines_append,
      unlines_graphMlEdge] at h
    simp at h

theorem graphMlArrows_inj {as bs : List (Edge × Nat)}
    (h : unlines (graphMlArrows as) = unlines (graphMlArrows bs)) : as = bs :=
  (unlines_flatMap_inj graphMlEdge_inj (fun a => graphMlEdge_append_ne a.1 a.2)
    (fun a => graphMlEdge_append_ne a.1 a.2) h).1

/-- The text begins with the heading and the name, and goes on with nodes and arrows. -/
theorem graphMl_eq (d : Diagram) : d.graphMl =
    unlines graphMlHeader ++ ("  <graph id=\"" ++ (xmlEscaped d.name ++
      ("\" edgedefault=\"directed\">\n" ++
        unlines (d.vertices.flatMap graphMlNode ++ graphMlArrows d.edges.zipIdx)))) := by
  have hgraph : unlines [s!"  <graph id=\"{xmlEscaped d.name}\" edgedefault=\"directed\">"] =
      "  <graph id=\"" ++ (xmlEscaped d.name ++ "\" edgedefault=\"directed\">\n") := by
    have htext (s : String) : toString s = s := rfl
    rw [← String.toList_inj]
    simp [unlines, htext]
  have hlines : d.graphMlLines = graphMlHeader ++
      ([s!"  <graph id=\"{xmlEscaped d.name}\" edgedefault=\"directed\">"] ++
        (d.vertices.flatMap graphMlNode ++ graphMlArrows d.edges.zipIdx)) := by
    simp only [graphMlLines, graphMlArrows, graphMlFooter, List.append_assoc]
  rw [graphMl, hlines, unlines_append, unlines_append, hgraph]
  simp only [String.append_assoc]

/-- **A text tells the name, the vertices and the arrows.** -/
theorem graphMl_inj {d e : Diagram} (h : d.graphMl = e.graphMl) :
    d.name = e.name ∧ d.vertices = e.vertices ∧ d.edges = e.edges := by
  rw [graphMl_eq, graphMl_eq, String.append_right_inj, String.append_right_inj] at h
  obtain ⟨hname, hbody⟩ := xmlEscaped_append_markup_inj (by decide) h
  obtain ⟨hvertices, harrows⟩ := unlines_flatMap_inj graphMlNode_inj
    (fun v r => graphMlNode_append_ne v r _) (fun v r => graphMlNode_append_ne v r _) hbody
  refine ⟨hname, hvertices, ?_⟩
  have hedges := congrArg (List.map Prod.fst) (graphMlArrows_inj harrows)
  rwa [List.zipIdx_map_fst, List.zipIdx_map_fst] at hedges

/-! ## Drawn diagrams -/

/-- The vertices are the nodes with the flags that the initial node says. -/
theorem vertices_replay (name : String) (calls : List Call) :
    (replay name calls).vertices = (replay name calls).nodes.map fun n =>
      ⟨n.id, n.label, (replay name calls).initial == some n.id⟩ :=
  (congrArg vertices (diagram_exported name calls)).symm

/-- The initial node is told from the flags. -/
theorem initial_eq_some_iff {name : String} {calls : List Call} {id : String} :
    (replay name calls).initial = some id ↔
      ∃ v ∈ (replay name calls).vertices, v.id = id ∧ v.initial = true := by
  constructor
  · intro h
    have hid := (sound_exported name calls).initial id h
    obtain ⟨n, hn, rfl⟩ := List.mem_map.mp hid
    rw [vertices_replay]
    exact ⟨_, List.mem_map_of_mem hn, rfl, by rw [h]; simp⟩
  · rintro ⟨v, hv, rfl, hflag⟩
    rw [vertices_replay, List.mem_map] at hv
    obtain ⟨n, -, rfl⟩ := hv
    exact eq_of_beq hflag

/-- **A GraphML text has one reading.**  Two drawn diagrams have the same text if and only if
their names, initial ids, nodes with labels and arrows are the same, whatever the names are;
the direction is not written. -/
theorem graphMl_unambiguous (name name' : String) (calls calls' : List Call) :
    (replay name calls).graphMl = (replay name' calls').graphMl ↔
      (replay name calls).exported.name = (replay name' calls').exported.name ∧
      (replay name calls).exported.initial = (replay name' calls').exported.initial ∧
      (replay name calls).exported.nodes = (replay name' calls').exported.nodes ∧
      (replay name calls).exported.edges = (replay name' calls').exported.edges := by
  constructor
  · intro h
    obtain ⟨hname, hvertices, hedges⟩ := graphMl_inj h
    refine ⟨hname, Option.ext fun id => ?_, ?_, hedges⟩
    · show (replay name calls).initial = some id ↔ (replay name' calls').initial = some id
      rw [initial_eq_some_iff, initial_eq_some_iff, hvertices]
    · show (replay name calls).nodes = (replay name' calls').nodes
      rw [nodes, nodes, hvertices]
  · rintro ⟨hname, hinitial, hnodes, hedges⟩
    simp only [exported] at hname hinitial hnodes hedges
    rw [graphMl_eq, graphMl_eq, vertices_replay, vertices_replay, hname, hinitial, hnodes, hedges]

end Diagram

end Transducers
