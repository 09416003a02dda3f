import Mathlib.Data.List.Forall2
import Transducers.Proofs.GraphMlText
import Transducers.Proofs.TreeOutline

/-!
# What an XML reader gets back from a GraphML text

A reader goes through the text once and keeps the tags.  In the value of an attribute it
decodes the five entities and turns tabs, line feeds and carriage returns into spaces.  So an
id comes back with its blanks made equal, and two ids that differ in nothing else become one.

* `XmlChar`, `XmlText`: the characters that an XML document may have;
* `XmlPlace.step`, `XmlPlace.scan`, `xmlTags`: a reader of tags;
* `attributeValue_escaped`: what becomes of an escaped name;
* `Scans.append`: to read a text and then another is to read both;
* `Diagram.scans_graphMlNode`, `Diagram.scans_graphMlEdge`: elements;
* `Diagram.scans_graphMl`: the tags of a whole text;
* `Diagram.xmlText_graphMl`: when all characters are allowed;
* `Diagram.graphMl_survives_iff`: which diagrams come back.
-/

namespace Transducers

/-! ## Characters -/

/-- The characters of XML 1.0. -/
def XmlChar (c : Char) : Prop :=
  c = '\t' ∨ c = '\n' ∨ c = '\r' ∨ (0x20 ≤ c.toNat ∧ c.toNat ≤ 0xD7FF) ∨
    (0xE000 ≤ c.toNat ∧ c.toNat ≤ 0xFFFD) ∨ (0x10000 ≤ c.toNat ∧ c.toNat ≤ 0x10FFFF)

instance (c : Char) : Decidable (XmlChar c) := inferInstanceAs (Decidable (_ ∨ _))

/-- All characters of the text are allowed. -/
def XmlText (s : String) : Prop := ∀ c ∈ s.toList, XmlChar c

instance (s : String) : Decidable (XmlText s) := List.decidableBAll XmlChar s.toList

/-- The blanks of XML. -/
def isXmlBlank (c : Char) : Bool := c = ' ' || c = '\t' || c = '\n' || c = '\r'

/-- A blank in an attribute is read as a space. -/
def spaced (c : Char) : Char := if isXmlBlank c then ' ' else c

/-- The text with every blank made a space. -/
def blanked (s : String) : String := .ofList (s.toList.map spaced)

/-! ## A reader -/

/-- The value that stands between quotes.  Blanks are made spaces, each by itself, and the
predefined entities are decoded, in one pass.  There are no references by number here: an
ampersand of a name is escaped itself.  This is the normalization of attribute values alone;
the handling of line ends, which makes a carriage return and a line feed after it one line
feed before any of this, is left out.  A reader that does both also makes one of two ids that
differ only in such a pair. -/
def attributeValue : List Char → List Char
  | [] => []
  | '&' :: 'a' :: 'm' :: 'p' :: ';' :: rest => '&' :: attributeValue rest
  | '&' :: 'l' :: 't' :: ';' :: rest => '<' :: attributeValue rest
  | '&' :: 'g' :: 't' :: ';' :: rest => '>' :: attributeValue rest
  | '&' :: 'q' :: 'u' :: 'o' :: 't' :: ';' :: rest => '"' :: attributeValue rest
  | '&' :: 'a' :: 'p' :: 'o' :: 's' :: ';' :: rest => '\x27' :: attributeValue rest
  | c :: rest => spaced c :: attributeValue rest

/-- A tag with its attributes.  The name of an end tag begins with a slash. -/
structure XmlTag where
  name : String
  attributes : List (String × String)
  deriving DecidableEq, Repr

namespace XmlTag

/-- The tag with one more attribute. -/
def add (t : XmlTag) (key value : List Char) : XmlTag :=
  { t with attributes := t.attributes ++ [(.ofList key, .ofList (attributeValue value))] }

/-- The id of a node. -/
def nodeId? (t : XmlTag) : Option String :=
  if t.name = "node" then t.attributes.lookup "id" else none

/-- The ends of an edge. -/
def edgeEnds? (t : XmlTag) : Option (String × String) :=
  if t.name = "edge" then do
    let source ← t.attributes.lookup "source"
    let target ← t.attributes.lookup "target"
    return (source, target)
  else none

end XmlTag

/-- Where a reader stands, and what it has read of the tag there. -/
inductive XmlPlace where
  | outside
  | name (read : List Char)
  | inside (tag : XmlTag) (key : List Char)
  | value (tag : XmlTag) (key read : List Char)
  deriving DecidableEq, Repr

namespace XmlPlace

/-- Read one character; the tag that ends with it, if one does. -/
def step : XmlPlace → Char → XmlPlace × List XmlTag
  | outside, c => if c = '<' then (name [], []) else (outside, [])
  | name read, c =>
    if c = '>' then (outside, [⟨.ofList read, []⟩])
    else if isXmlBlank c then (inside ⟨.ofList read, []⟩ [], [])
    else (name (read ++ [c]), [])
  | inside tag key, c =>
    if c = '>' then (outside, [tag])
    else if c = '"' then (value tag key [], [])
    else if isXmlBlank c || c = '=' then (inside tag key, [])
    else (inside tag (key ++ [c]), [])
  | value tag key read, c =>
    if c = '"' then (inside (tag.add key read) [], [])
    else (value tag key (read ++ [c]), [])

/-- Read a text; the tags that end in it. -/
def scan : XmlPlace → List Char → XmlPlace × List XmlTag
  | place, [] => (place, [])
  | place, c :: rest =>
    let (next, tags) := place.step c
    let (last, more) := next.scan rest
    (last, tags ++ more)

end XmlPlace

/-- The tags of a text. -/
def xmlTags (s : String) : List XmlTag := (XmlPlace.outside.scan s.toList).2

/-- The ids of the nodes in a text. -/
def nodeIds (s : String) : List String := (xmlTags s).filterMap XmlTag.nodeId?

/-- The ends of the edges in a text. -/
def edgeEnds (s : String) : List (String × String) := (xmlTags s).filterMap XmlTag.edgeEnds?

/-! ## Escaped names -/

theorem attributeValue_xmlEscape (c : Char) (rest : List Char) :
    attributeValue (xmlEscape c ++ rest) = spaced c :: attributeValue rest := by
  unfold xmlEscape
  split
  case h_6 hamp _ _ _ _ =>
    rw [List.singleton_append, attributeValue]
    all_goals exact fun _ h => absurd h hamp
  all_goals rfl

/-- **An escaped name comes back with its blanks made spaces.** -/
theorem attributeValue_escaped (s : List Char) :
    attributeValue (s.flatMap xmlEscape) = s.map spaced := by
  induction s with
  | nil => rfl
  | cons c s ih => rw [List.flatMap_cons, attributeValue_xmlEscape, ih, List.map_cons]

theorem isDigit_of_mem_toString {n : Nat} {c : Char} (hc : c ∈ (toString n).toList) :
    c.isDigit = true := by
  rw [Nat.toString_eq_repr, Nat.toList_repr] at hc
  exact Nat.isDigit_of_mem_toDigits (by decide) (by decide) hc

theorem quote_notMem_xmlEscape (c : Char) : '"' ∉ xmlEscape c := by
  unfold xmlEscape
  split <;> simp_all [eq_comm]

theorem bracket_notMem_xmlEscape (c : Char) : '<' ∉ xmlEscape c := by
  unfold xmlEscape
  split <;> simp_all [eq_comm]

/-! ## Reading in pieces -/

/-- A reader at `place` goes through the text to `next`, and the tags end in it. -/
def Scans (place : XmlPlace) (text : String) (tags : List XmlTag) (next : XmlPlace) : Prop :=
  place.scan text.toList = (next, tags)

theorem XmlPlace.scan_append (place : XmlPlace) (s t : List Char) :
    place.scan (s ++ t) =
      (((place.scan s).1.scan t).1, (place.scan s).2 ++ ((place.scan s).1.scan t).2) := by
  induction s generalizing place with
  | nil => rfl
  | cons c s ih => simp only [List.cons_append, scan, ih, List.append_assoc]

/-- **To read a text and then another is to read both.** -/
theorem Scans.append {place next last : XmlPlace} {s t : String} {tags more : List XmlTag}
    (hs : Scans place s tags next) (ht : Scans next t more last) :
    Scans place (s ++ t) (tags ++ more) last := by
  unfold Scans at *
  rw [String.toList_append, XmlPlace.scan_append, hs, ht]

/-- A text with its characters in sight.  A literal is one, so to read it takes no decoding. -/
theorem scans_ofList {place next : XmlPlace} {l : List Char} {tags : List XmlTag}
    (h : place.scan l = (next, tags)) : Scans place (.ofList l) tags next := by
  rw [Scans, String.toList_ofList, h]

/-- Outside of tags nothing is kept up to the next tag. -/
theorem scans_outside {s : String} (hs : '<' ∉ s.toList) :
    Scans .outside s [] .outside := by
  unfold Scans
  generalize s.toList = l at hs
  induction l with
  | nil => rfl
  | cons c l ih =>
    obtain ⟨hc, hl⟩ := not_or.mp (mt List.mem_cons.mpr hs)
    simp [XmlPlace.scan, XmlPlace.step, Ne.symm hc, ih hl]

/-- Between quotes all is kept up to the next quote. -/
theorem scans_kept {t : XmlTag} {key read : List Char} {s : String} (hs : '"' ∉ s.toList) :
    Scans (.value t key read) s [] (.value t key (read ++ s.toList)) := by
  unfold Scans
  generalize s.toList = l at hs
  induction l generalizing read with
  | nil => simp [XmlPlace.scan]
  | cons c l ih =>
    obtain ⟨hc, hl⟩ := not_or.mp (mt List.mem_cons.mpr hs)
    simp [XmlPlace.scan, XmlPlace.step, Ne.symm hc, ih hl]

/-- A value ends at the next quote. -/
theorem scans_value {t : XmlTag} {key read : List Char} {s : String} {markup : List Char}
    {tags : List XmlTag} {next : XmlPlace} (hs : '"' ∉ s.toList)
    (h : (XmlPlace.inside (t.add key (read ++ s.toList)) []).scan markup = (next, tags)) :
    Scans (.value t key read) (s ++ .ofList ('"' :: markup)) tags next := by
  have hmarkup : Scans (.value t key (read ++ s.toList)) (.ofList ('"' :: markup)) tags next := by
    refine scans_ofList ?_
    simp [XmlPlace.scan, XmlPlace.step, h]
  exact (scans_kept hs).append hmarkup

/-- **An attribute comes back with its blanks made spaces.** -/
theorem scans_attribute {t : XmlTag} {key : List Char} {s : String} {markup : List Char}
    {tags : List XmlTag} {next : XmlPlace}
    (h : (XmlPlace.inside ⟨t.name, t.attributes ++ [(.ofList key, blanked s)]⟩ []).scan markup =
      (next, tags)) :
    Scans (.value t key []) (xmlEscaped s ++ .ofList ('"' :: markup)) tags next := by
  have hquote : '"' ∉ (xmlEscaped s).toList := by
    simp [xmlEscaped, quote_notMem_xmlEscape]
  refine scans_value hquote ?_
  rwa [XmlTag.add, List.nil_append, xmlEscaped, String.toList_ofList, attributeValue_escaped]

theorem scans_escaped_outside (s : String) : Scans .outside (xmlEscaped s) [] .outside := by
  refine scans_outside ?_
  simp [xmlEscaped, bracket_notMem_xmlEscape]

namespace Diagram

/-! ## Elements -/

/-- The tags of a node's element. -/
def nodeTags (v : Vertex) : List XmlTag :=
  [⟨"node", [("id", blanked v.id)]⟩, ⟨"data", [("key", "label")]⟩, ⟨"/data", []⟩,
    ⟨"data", [("key", "initial")]⟩, ⟨"/data", []⟩, ⟨"/node", []⟩]

/-- **One node.** -/
theorem scans_graphMlNode (v : Vertex) :
    Scans .outside (unlines (graphMlNode v)) (nodeTags v) .outside := by
  have hopen : Scans .outside "    <node id=\"" [] (.value ⟨"node", []⟩ ['i', 'd'] []) :=
    scans_ofList rfl
  have hid : Scans (.value ⟨"node", []⟩ ['i', 'd'] [])
      (xmlEscaped v.id ++ "\">\n      <data key=\"label\">")
      [⟨"node", [("id", blanked v.id)]⟩, ⟨"data", [("key", "label")]⟩] .outside :=
    scans_attribute rfl
  have hinitial : Scans .outside "</data>\n      <data key=\"initial\">"
      [⟨"/data", []⟩, ⟨"data", [("key", "initial")]⟩] .outside := scans_ofList rfl
  have hflag : Scans .outside (toString v.initial) [] .outside := by
    cases v.initial <;> rfl
  have hclose : Scans .outside "</data>\n    </node>\n" [⟨"/data", []⟩, ⟨"/node", []⟩] .outside :=
    scans_ofList rfl
  have hall := hopen.append (hid.append
    ((scans_escaped_outside v.label).append (hinitial.append (hflag.append hclose))))
  simp only [String.append_assoc] at hall
  rw [unlines_graphMlNode]
  exact hall

/-- The tag of an edge with its id and the attributes after it. -/
def edgeTag (number : Nat) (ends : List (String × String)) : XmlTag :=
  ⟨"edge", ("id", .ofList (attributeValue ('e' :: (toString number).toList))) :: ends⟩

def edgeTags (e : Edge) (number : Nat) : List XmlTag :=
  [edgeTag number [("source", blanked e.source), ("target", blanked e.target)],
    ⟨"data", [("key", "edge_label")]⟩, ⟨"/data", []⟩, ⟨"/edge", []⟩]

/-- **One edge.** -/
theorem scans_graphMlEdge (e : Edge) (number : Nat) :
    Scans .outside (unlines (graphMlEdge e number)) (edgeTags e number) .outside := by
  have hdigits : '"' ∉ (toString number).toList := fun hquote =>
    absurd (isDigit_of_mem_toString hquote) (by decide)
  have hopen : Scans .outside "    <edge id=\"e" [] (.value ⟨"edge", []⟩ ['i', 'd'] ['e']) :=
    scans_ofList rfl
  have hid : Scans (.value ⟨"edge", []⟩ ['i', 'd'] ['e']) (toString number ++ "\"") []
      (.inside (edgeTag number []) []) := scans_value hdigits rfl
  have hnext : Scans (.inside (edgeTag number []) []) " source=\"" []
      (.value (edgeTag number []) "source".toList []) := scans_ofList rfl
  have hsource : Scans (.value (edgeTag number []) "source".toList [])
      (xmlEscaped e.source ++ "\" target=\"") []
      (.value (edgeTag number [("source", blanked e.source)]) "target".toList []) :=
    scans_attribute rfl
  have htarget : Scans
      (.value (edgeTag number [("source", blanked e.source)]) "target".toList [])
      (xmlEscaped e.target ++ "\">\n      <data key=\"edge_label\">")
      [edgeTag number [("source", blanked e.source), ("target", blanked e.target)],
        ⟨"data", [("key", "edge_label")]⟩] .outside := scans_attribute rfl
  have hclose : Scans .outside "</data>\n    </edge>\n" [⟨"/data", []⟩, ⟨"/edge", []⟩] .outside :=
    scans_ofList rfl
  -- the texts fit together: each begins where the one before it leaves the reader
  have hall := hopen.append (hid.append (hnext.append (hsource.append (htarget.append
    ((scans_escaped_outside e.label).append hclose)))))
  simp only [String.append_assoc] at hall
  rw [unlines_graphMlEdge]
  exact hall

/-- Items, one after another. -/
theorem scans_flatMap {α : Type} {f : α → List String} {tags : α → List XmlTag}
    (h : ∀ a, Scans .outside (unlines (f a)) (tags a) .outside) (as : List α) :
    Scans .outside (unlines (as.flatMap f)) (as.flatMap tags) .outside := by
  induction as with
  | nil => rfl
  | cons a as ih =>
    rw [List.flatMap_cons, unlines_append]
    exact (h a).append ih

/-! ## Documents -/

def headerTags : List XmlTag :=
  [⟨"?xml", [("version", "1.0"), ("encoding", "UTF-8")]⟩,
    ⟨"graphml", [("xmlns", "http://graphml.graphdrawing.org/xmlns"),
      ("xmlns:xsi", "http://www.w3.org/2001/XMLSchema-instance"),
      ("xsi:schemaLocation", "http://graphml.graphdrawing.org/xmlns" ++
        "          http://graphml.graphdrawing.org/xmlns/1.0/graphml.xsd")]⟩,
    ⟨"key", [("id", "label"), ("for", "node"), ("attr.name", "label"), ("attr.type", "string")]⟩,
    ⟨"key", [("id", "initial"), ("for", "node"), ("attr.name", "initial"),
      ("attr.type", "boolean")]⟩,
    ⟨"key", [("id", "edge_label"), ("for", "edge"), ("attr.name", "label"),
      ("attr.type", "string")]⟩]

-- the heading is long, so it is read in three parts: the declaration, the schema and the keys
set_option maxRecDepth 2000 in
theorem scans_graphMlHeader : Scans .outside (unlines graphMlHeader) headerTags .outside := by
  have hdeclaration :
      Scans .outside (unlines (graphMlHeader.take 1)) (headerTags.take 1) .outside := by
    simp only [Scans, toList_unlines, graphMlHeader, List.take, List.flatMap_cons, List.flatMap_nil]
    rw [String.toList_ofList]
    rfl
  have hschema : Scans .outside (unlines ((graphMlHeader.drop 1).take 4))
      ((headerTags.drop 1).take 1) .outside := by
    simp only [Scans, toList_unlines, graphMlHeader, List.drop, List.take, List.flatMap_cons,
      List.flatMap_nil]
    iterate 4 rw [String.toList_ofList]
    rfl
  have hkeys : Scans .outside (unlines (graphMlHeader.drop 5)) (headerTags.drop 2) .outside := by
    simp only [Scans, toList_unlines, graphMlHeader, List.drop, List.flatMap_cons, List.flatMap_nil]
    iterate 3 rw [String.toList_ofList]
    rfl
  have hall := hdeclaration.append (hschema.append hkeys)
  rwa [← unlines_append, ← unlines_append] at hall

/-- The tags of a diagram's text. -/
def graphMlTags (d : Diagram) : List XmlTag :=
  headerTags ++ (⟨"graph", [("id", blanked d.name), ("edgedefault", "directed")]⟩ ::
    (d.vertices.flatMap nodeTags ++
      (d.edges.zipIdx.flatMap (fun (e, number) => edgeTags e number) ++
        [⟨"/graph", []⟩, ⟨"/graphml", []⟩])))

/-- **A whole text.** -/
theorem scans_graphMl (d : Diagram) : Scans .outside d.graphMl d.graphMlTags .outside := by
  have hopen : Scans .outside "  <graph id=\"" [] (.value ⟨"graph", []⟩ ['i', 'd'] []) :=
    scans_ofList rfl
  have hname : Scans (.value ⟨"graph", []⟩ ['i', 'd'] [])
      (xmlEscaped d.name ++ "\" edgedefault=\"directed\">\n")
      [⟨"graph", [("id", blanked d.name), ("edgedefault", "directed")]⟩] .outside :=
    scans_attribute rfl
  have hnodes := scans_flatMap scans_graphMlNode d.vertices
  have hedges : Scans .outside
      (unlines (d.edges.zipIdx.flatMap fun (e, number) => graphMlEdge e number))
      (d.edges.zipIdx.flatMap fun (e, number) => edgeTags e number) .outside :=
    scans_flatMap (fun (e, number) => scans_graphMlEdge e number) _
  have hfooter : Scans .outside (unlines graphMlFooter) [⟨"/graph", []⟩, ⟨"/graphml", []⟩]
      .outside := by
    simp only [Scans, toList_unlines, graphMlFooter, List.flatMap_cons, List.flatMap_nil]
    iterate 2 rw [String.toList_ofList]
    rfl
  have hall := scans_graphMlHeader.append
    (hopen.append (hname.append (hnodes.append (hedges.append hfooter))))
  simp only [String.append_assoc, List.nil_append, List.singleton_append] at hall
  rw [graphMl_eq, unlines_append, graphMlArrows, unlines_append, graphMlTags]
  exact hall

theorem xmlTags_graphMl (d : Diagram) : xmlTags d.graphMl = d.graphMlTags :=
  congrArg Prod.snd d.scans_graphMl

/-- What is selected from the tags, if only tags of nodes and edges are. -/
theorem filterMap_graphMlTags {β : Type} {select : XmlTag → Option β}
    (hselect : ∀ t : XmlTag, t.name ≠ "node" → t.name ≠ "edge" → select t = none) (d : Diagram) :
    d.graphMlTags.filterMap select =
      (d.vertices.filterMap fun v => select ⟨"node", [("id", blanked v.id)]⟩) ++
        d.edges.zipIdx.filterMap fun e => select
          (edgeTag e.2 [("source", blanked e.1.source), ("target", blanked e.1.target)]) := by
  have hnode (v : Vertex) : (nodeTags v).filterMap select =
      (select ⟨"node", [("id", blanked v.id)]⟩).toList := by
    rw [nodeTags, List.filterMap_cons]
    cases select ⟨"node", [("id", blanked v.id)]⟩ <;> simp [hselect]
  have hedge (e : Edge) (number : Nat) : (edgeTags e number).filterMap select = (select
      (edgeTag number [("source", blanked e.source), ("target", blanked e.target)])).toList := by
    rw [edgeTags, List.filterMap_cons]
    cases select (edgeTag number [("source", blanked e.source), ("target", blanked e.target)]) <;>
      simp [hselect]
  simp only [graphMlTags, List.filterMap_append, List.filterMap_cons, List.filterMap_flatMap, hnode,
    hedge, ← List.filterMap_eq_flatMap_toList]
  simp [headerTags, hselect]

/-- **The ids of the nodes** come back with their blanks made spaces. -/
theorem nodeIds_graphMl (d : Diagram) : nodeIds d.graphMl = d.ids.map blanked := by
  have hnode (v : Vertex) :
      XmlTag.nodeId? ⟨"node", [("id", blanked v.id)]⟩ = some (blanked v.id) := rfl
  have hedge (number : Nat) (ends : List (String × String)) :
      XmlTag.nodeId? (edgeTag number ends) = none := rfl
  have hother (t : XmlTag) (ht : t.name ≠ "node") : t.nodeId? = none := if_neg ht
  rw [nodeIds, xmlTags_graphMl, filterMap_graphMlTags fun t ht _ => hother t ht]
  simp [hnode, hedge, ids]

/-- **The ends of the edges** come back with their blanks made spaces. -/
theorem edgeEnds_graphMl (d : Diagram) : edgeEnds d.graphMl =
    d.edges.map fun e => (blanked e.source, blanked e.target) := by
  have hnode (v : Vertex) : XmlTag.edgeEnds? ⟨"node", [("id", blanked v.id)]⟩ = none := rfl
  have hedge (number : Nat) (source target : String) : XmlTag.edgeEnds?
      (edgeTag number [("source", source), ("target", target)]) = some (source, target) := rfl
  have hother (t : XmlTag) (ht : t.name ≠ "edge") : t.edgeEnds? = none := if_neg ht
  rw [edgeEnds, xmlTags_graphMl, filterMap_graphMlTags fun t _ ht => hother t ht]
  simp only [hnode, hedge, List.filterMap_none, List.nil_append, List.filterMap_eq_map']
  conv_rhs => rw [← List.zipIdx_map_fst 0 d.edges, List.map_map]
  rfl

end Diagram

/-! ## Characters of a text -/

theorem forall_xmlChar {l : List Char} (h : l.all (XmlChar ·) = true) : ∀ c ∈ l, XmlChar c :=
  fun c hc => of_decide_eq_true (List.all_eq_true.mp h c hc)

theorem forall_mem_xmlEscape {c : Char} : (∀ x ∈ xmlEscape c, XmlChar x) ↔ XmlChar c := by
  unfold xmlEscape
  split
  case h_6 => simp
  all_goals exact iff_of_true (forall_xmlChar (by decide)) (by decide)

theorem xmlText_escaped {s : String} : XmlText (xmlEscaped s) ↔ XmlText s := by
  simp only [XmlText, xmlEscaped, String.toList_ofList, List.forall_mem_flatMap,
    forall_mem_xmlEscape]

theorem xmlText_ofList {l : List Char} (h : l.all (XmlChar ·) = true) : XmlText (.ofList l) := by
  rw [XmlText, String.toList_ofList]
  exact forall_xmlChar h

theorem xmlText_append {s t : String} : XmlText (s ++ t) ↔ XmlText s ∧ XmlText t := by
  simp only [XmlText, String.toList_append, List.forall_mem_append]

theorem xmlText_unlines {ls : List String} : XmlText (unlines ls) ↔ ∀ l ∈ ls, XmlText l := by
  have hbreak : XmlChar '\n' := by decide
  simp only [XmlText, toList_unlines, List.forall_mem_flatMap, List.forall_mem_append,
    List.forall_mem_singleton, hbreak, and_true]

/-- Items of several lines. -/
theorem xmlText_flatMap {α : Type} {f : α → List String} {as : List α} :
    XmlText (unlines (as.flatMap f)) ↔ ∀ a ∈ as, XmlText (unlines (f a)) := by
  simp only [xmlText_unlines, List.forall_mem_flatMap]

theorem xmlText_number (n : Nat) : XmlText (toString n) := by
  intro c hc
  have hdigit := isDigit_of_mem_toString hc
  have hcode : 0x30 ≤ c.toNat ∧ c.toNat ≤ 0x39 := by
    simpa [Char.isDigit, UInt32.le_iff_toNat_le] using hdigit
  exact Or.inr (Or.inr (Or.inr (Or.inl (by omega))))

namespace Diagram

theorem xmlText_graphMlHeader : XmlText (unlines graphMlHeader) := by
  simp only [xmlText_unlines, graphMlHeader, List.forall_mem_cons]
  refine ⟨?_, ?_, ?_, ?_, ?_, ?_, ?_, ?_, fun _ h => absurd h List.not_mem_nil⟩ <;>
    exact xmlText_ofList (by decide)

theorem xmlText_graphMlNode {v : Vertex} :
    XmlText (unlines (graphMlNode v)) ↔ XmlText v.id ∧ XmlText v.label := by
  have hopen : XmlText "    <node id=\"" := xmlText_ofList (by decide)
  have hlabel : XmlText "\">\n      <data key=\"label\">" := xmlText_ofList (by decide)
  have hinitial : XmlText "</data>\n      <data key=\"initial\">" := xmlText_ofList (by decide)
  have hflag : XmlText (toString v.initial) := by
    cases v.initial
    · exact xmlText_ofList (by decide)
    · exact xmlText_ofList (by decide)
  have hclose : XmlText "</data>\n    </node>\n" := xmlText_ofList (by decide)
  simp only [unlines_graphMlNode, xmlText_append, xmlText_escaped, hopen, hlabel, hinitial, hflag,
    hclose, true_and, and_true]

theorem xmlText_graphMlEdge {e : Edge} {number : Nat} :
    XmlText (unlines (graphMlEdge e number)) ↔
      XmlText e.source ∧ XmlText e.target ∧ XmlText e.label := by
  have hopen : XmlText "    <edge id=\"e" := xmlText_ofList (by decide)
  have hquote : XmlText "\"" := xmlText_ofList (by decide)
  have hsource : XmlText " source=\"" := xmlText_ofList (by decide)
  have htarget : XmlText "\" target=\"" := xmlText_ofList (by decide)
  have hlabel : XmlText "\">\n      <data key=\"edge_label\">" := xmlText_ofList (by decide)
  have hclose : XmlText "</data>\n    </edge>\n" := xmlText_ofList (by decide)
  simp only [unlines_graphMlEdge, xmlText_append, xmlText_escaped, xmlText_number, hopen, hquote,
    hsource, htarget, hlabel, hclose, true_and, and_true]

/-- **The characters of a text** are allowed if those of the names and labels are. -/
theorem xmlText_graphMl (d : Diagram) : XmlText d.graphMl ↔
    XmlText d.name ∧ (∀ v ∈ d.vertices, XmlText v.id ∧ XmlText v.label) ∧
      ∀ e ∈ d.edges, XmlText e.source ∧ XmlText e.target ∧ XmlText e.label := by
  have hopen : XmlText "  <graph id=\"" := xmlText_ofList (by decide)
  have hmode : XmlText "\" edgedefault=\"directed\">\n" := xmlText_ofList (by decide)
  have hfooter : XmlText (unlines graphMlFooter) := by
    rw [xmlText_unlines]
    decide
  have hedges : (∀ a ∈ d.edges.zipIdx, XmlText (unlines (graphMlEdge a.1 a.2))) ↔
      ∀ e ∈ d.edges, XmlText e.source ∧ XmlText e.target ∧ XmlText e.label := by
    conv_rhs => rw [← List.zipIdx_map_fst 0 d.edges, List.forall_mem_map]
    simp only [xmlText_graphMlEdge]
  simp only [graphMl_eq, graphMlArrows, unlines_append, xmlText_append, xmlText_escaped,
    xmlText_flatMap, xmlText_graphMlNode, hedges, xmlText_graphMlHeader, hopen, hmode, hfooter,
    true_and, and_true]

/-- A control character has no escape, and is written as it is. -/
example : ¬ XmlText (replay "g" [.node "\x01" "A"]).graphMl := by
  rw [xmlText_graphMl]
  decide

end Diagram

/-! ## What survives -/

/-- Of the nodes with these ids, the one at the place has the id, and no other. -/
def Names (ids : List String) (id : String) (place : Nat) : Prop :=
  ∀ i : Nat, ids[i]? = some id ↔ i = place

theorem names_of_nodup {ids : List String} (hn : ids.Nodup) {id : String} {place : Nat}
    (h : ids[place]? = some id) : Names ids id place := by
  intro i
  constructor
  · intro hi
    obtain ⟨hlt, heq⟩ := List.getElem?_eq_some_iff.mp hi
    obtain ⟨hlt', heq'⟩ := List.getElem?_eq_some_iff.mp h
    exact (hn.getElem_inj_iff).mp (heq.trans heq'.symm)
  · rintro rfl
    exact h

namespace Diagram

/-- An XML reader accepts the characters of the text and tells the nodes apart by their ids, and
the ends of each edge name the nodes that its arrow joins. -/
structure Survives (d : Diagram) : Prop where
  chars : XmlText d.graphMl
  nodup : (nodeIds d.graphMl).Nodup
  ends : List.Forall₂
    (fun e a => Names (nodeIds d.graphMl) e.1 a.source ∧ Names (nodeIds d.graphMl) e.2 a.target)
    (edgeEnds d.graphMl) d.arrows

/-- The id attribute at the end of an arrow. -/
theorem getElem?_nodeIds {d : Diagram} {place : Nat} (h : place < d.nodeCount) :
    (nodeIds d.graphMl)[place]? = some (blanked (d.idAt place)) := by
  rw [nodeCount] at h
  simp [nodeIds_graphMl, ids, idAt, h]

/-- Where the ids are told apart, so are the ends of the edges. -/
theorem WellPlaced.survives_iff {d : Diagram} (hd : d.WellPlaced) :
    d.Survives ↔ XmlText d.graphMl ∧ (nodeIds d.graphMl).Nodup := by
  constructor
  · intro h
    exact ⟨h.chars, h.nodup⟩
  · rintro ⟨hchars, hnodup⟩
    refine ⟨hchars, hnodup, ?_⟩
    rw [edgeEnds_graphMl, edges, List.map_map, List.forall₂_map_left_iff, List.forall₂_same]
    intro a ha
    exact ⟨names_of_nodup hnodup (getElem?_nodeIds (hd.source a ha)),
      names_of_nodup hnodup (getElem?_nodeIds (hd.target a ha))⟩

/-- **What comes back from a GraphML text.**  The ids of the nodes and the ends of the edges come
back with their blanks made spaces.  So the text survives a reader if and only if the name,
ids and labels have only characters that XML allows, and no two ids differ in nothing but the
kinds of their blanks. -/
theorem graphMl_survives_iff (name : String) (calls : List Call) :
    nodeIds (replay name calls).graphMl = (replay name calls).ids.map blanked ∧
    edgeEnds (replay name calls).graphMl =
      (replay name calls).edges.map (fun e => (blanked e.source, blanked e.target)) ∧
    ((replay name calls).Survives ↔
      XmlText name ∧
      (∀ v ∈ (replay name calls).vertices, XmlText v.id ∧ XmlText v.label) ∧
      (∀ e ∈ (replay name calls).edges, XmlText e.label) ∧
      ((replay name calls).ids.map blanked).Nodup) := by
  refine ⟨nodeIds_graphMl _, edgeEnds_graphMl _, ?_⟩
  rw [(records_replay name calls).wellPlaced.survives_iff, xmlText_graphMl, name_replay,
    nodeIds_graphMl, and_assoc, and_assoc]
  refine and_congr_right fun _ => and_congr_right fun hvertices => and_congr_left fun _ => ?_
  -- the ends of the edges are ids of nodes
  have hid : ∀ id ∈ (replay name calls).ids, XmlText id := by
    intro id hid
    obtain ⟨v, hv, rfl⟩ := List.mem_map.mp hid
    exact (hvertices v hv).1
  refine forall₂_congr fun e he => ?_
  obtain ⟨hsource, htarget⟩ := (sound_exported name calls).ends e he
  rw [ids_exported] at hsource htarget
  exact ⟨fun h => h.2.2, fun h => ⟨hid _ hsource, hid _ htarget, h⟩⟩

/-- The two ids differ in a line feed that stands for a space. -/
def folding : List Call := [.node "a b" "x", .node "a\nb" "y", .edge "a b" "a\nb" "0"]

theorem graphMl_folding :
    ¬ (replay "g" folding).Survives ∧ nodeIds (replay "g" folding).graphMl = ["a b", "a b"] ∧
      edgeEnds (replay "g" folding).graphMl = [("a b", "a b")] := by
  have hids : nodeIds (replay "g" folding).graphMl = ["a b", "a b"] := by
    rw [nodeIds_graphMl]
    decide
  refine ⟨fun h => ?_, hids, ?_⟩
  · have hn := h.nodup
    rw [hids] at hn
    exact absurd hn (by decide)
  · rw [edgeEnds_graphMl]
    decide

end Diagram

end Transducers
