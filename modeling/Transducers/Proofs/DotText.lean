import Transducers.Diagram.Export
import Transducers.Proofs.EscapedText

/-!
# A DOT text has one reading

A line break inside a name is escaped, so each statement stays on one line, and a quote is
escaped, so a quoted id ends at the first quote after it.  The statements can be told from
the lines, and what a diagram shows from the statements, whatever its names are.

* `flatMap_dotEscape`: escaping is three replacements, backslashes first;
* `dotQuoted_append_inj`: a quoted id ends at its second quote;
* `DotStatement`, `DotStatement.line_injective`: statements, told from their lines;
* `dotDocument`, `unlines_dotDocument_inj`: documents, told from their text;
* `Diagram.dotLines_eq`: a diagram as statements;
* `Diagram.dot_eq_iff`: diagrams with the same text have the same export.
-/

namespace Transducers

/-! ## Quoted ids -/

/-- Escaping is three replacements one after another, of which that of the backslash is the
first, since the others bring in new ones. -/
theorem flatMap_dotEscape (s : List Char) : s.flatMap dotEscape =
    replaced '\n' ['\\', 'n'] (replaced '"' ['\\', '"'] (replaced '\\' ['\\', '\\'] s)) := by
  induction s with
  | nil => rfl
  | cons c s ih =>
    have hone : dotEscape c =
        replaced '\n' ['\\', 'n'] (replaced '"' ['\\', '"'] (replaced '\\' ['\\', '\\'] [c])) := by
      unfold dotEscape
      split <;> simp_all [replaced]
    rw [List.flatMap_cons, ih, hone, ← replaced_append, ← replaced_append, ← replaced_append]
    rfl

theorem dotEscape_append_inj {c d : Char} {r u : List Char}
    (h : dotEscape c ++ r = dotEscape d ++ u) : c = d ∧ r = u := by
  unfold dotEscape at h
  split at h <;> split at h <;> grind

theorem dotEscape_append_ne {c : Char} {r u : List Char} : dotEscape c ++ r ≠ '"' :: u := by
  unfold dotEscape
  split <;> simp_all

theorem toList_dotQuoted (s : String) :
    (dotQuoted s).toList = '"' :: (s.toList.flatMap dotEscape ++ ['"']) := by
  simp [dotQuoted]

/-- A quoted id ends at its second quote. -/
theorem dotQuoted_append_inj {s t r u : String} (h : dotQuoted s ++ r = dotQuoted t ++ u) :
    s = t ∧ r = u := by
  replace h := congrArg String.toList h
  rw [String.toList_append, String.toList_append, toList_dotQuoted, toList_dotQuoted] at h
  simp only [List.cons_append, List.append_assoc, List.cons.injEq, true_and, List.nil_append] at h
  obtain ⟨hs, hr⟩ := flatMap_append_inj dotEscape_append_inj
    (fun _ _ _ => dotEscape_append_ne) (fun _ _ _ => dotEscape_append_ne) h
  exact ⟨String.toList_inj.mp hs, String.toList_inj.mp (List.cons.inj hr).2⟩

theorem newline_notMem_dotQuoted (s : String) : '\n' ∉ (dotQuoted s).toList := by
  have hchar : ∀ c, '\n' ∉ dotEscape c := by
    intro c
    unfold dotEscape
    split
    · decide
    · decide
    · decide
    · rename_i hc
      simpa using fun h : '\n' = c => hc h.symm
  rw [toList_dotQuoted]
  simp [hchar]

/-! ## Statements -/

/-- A statement about nodes and arrows. -/
inductive DotStatement where
  /-- A point without a label. -/
  | point (id : String)
  | node (id label : String)
  /-- An arrow, which may have no label. -/
  | arrow (source target : String) (label : Option String)
  deriving DecidableEq, Repr

namespace DotStatement

/-- The id with which the statement begins. -/
def subject : DotStatement → String
  | point id => id
  | node id _ => id
  | arrow source _ _ => source

/-- What the statement says of its id. -/
def predicate : DotStatement → String
  | point _ => " [shape=point, label=\"\"];"
  | node _ label => " [label=" ++ (dotQuoted label ++ "];")
  | arrow _ target none => " -> " ++ (dotQuoted target ++ ";")
  | arrow _ target (some label) =>
    " -> " ++ (dotQuoted target ++ (" [label=" ++ (dotQuoted label ++ "];")))

def line (s : DotStatement) : String := "    " ++ (dotQuoted s.subject ++ s.predicate)

/-! What a statement shows. -/

def node? : DotStatement → Option Node
  | node id label => some ⟨id, label⟩
  | _ => none

def edge? : DotStatement → Option Edge
  | arrow source target (some label) => some ⟨source, target, label⟩
  | _ => none

/-- The id to which an arrow without a label points. -/
def start? : DotStatement → Option String
  | arrow _ target none => some target
  | _ => none

/-! Statements as lines. -/

theorem newline_notMem_line (s : DotStatement) : '\n' ∉ s.line.toList := by
  cases s with
  | point id => simp [line, subject, predicate, newline_notMem_dotQuoted]
  | node id label => simp [line, subject, predicate, newline_notMem_dotQuoted]
  | arrow source target label =>
    cases label <;> simp [line, subject, predicate, newline_notMem_dotQuoted]

/-- Statements of different kinds say different things, and a label ends where it is
quoted. -/
theorem eq_of_predicate_eq {s t : DotStatement} (hsubject : s.subject = t.subject)
    (h : s.predicate = t.predicate) : s = t := by
  have htext := congrArg String.toList h
  cases s with
  | point id =>
    cases t with
    | point id' => exact congrArg point hsubject
    | node id' label' => simp [predicate] at htext
    | arrow source' target' label' => cases label' <;> simp [predicate] at htext
  | node id label =>
    cases t with
    | point id' => simp [predicate] at htext
    | node id' label' =>
      have hlabel := dotQuoted_append_inj ((String.append_right_inj _).mp h)
      exact congrArg₂ node hsubject hlabel.1
    | arrow source' target' label' => cases label' <;> simp [predicate] at htext
  | arrow source target label =>
    cases t with
    | point id' => cases label <;> simp [predicate] at htext
    | node id' label' => cases label <;> simp [predicate] at htext
    | arrow source' target' label' =>
      have hsource : source = source' := hsubject
      cases label <;> cases label'
      case none.none =>
        have htarget := dotQuoted_append_inj ((String.append_right_inj _).mp h)
        rw [hsource, htarget.1]
      case some.some =>
        obtain ⟨htarget, hrest⟩ := dotQuoted_append_inj ((String.append_right_inj _).mp h)
        have hlabel := dotQuoted_append_inj ((String.append_right_inj _).mp hrest)
        rw [hsource, htarget, hlabel.1]
      case none.some =>
        have hrest := (dotQuoted_append_inj ((String.append_right_inj _).mp h)).2
        exact absurd (congrArg String.toList hrest) (by simp)
      case some.none =>
        have hrest := (dotQuoted_append_inj ((String.append_right_inj _).mp h)).2
        exact absurd (congrArg String.toList hrest) (by simp)

/-- **A statement can be told from its line.** -/
theorem line_injective : Function.Injective line := by
  intro s t h
  obtain ⟨hsubject, hpredicate⟩ := dotQuoted_append_inj ((String.append_right_inj _).mp h)
  exact eq_of_predicate_eq hsubject hpredicate

end DotStatement

/-! ## Documents -/

theorem letters_injective : Function.Injective Direction.letters := by
  intro a b h
  cases a <;> cases b
  · rfl
  · exact absurd h (by decide)
  · exact absurd h (by decide)
  · rfl

/-- The lines of a document: a heading, the direction, the statements and an end. -/
def dotDocument (name : String) (rank : Direction) (statements : List DotStatement) :
    List String :=
  ("digraph " ++ dotQuoted name ++ " \x7b") :: ("    rankdir=" ++ rank.letters ++ ";") ::
    (statements.map DotStatement.line ++ ["\x7d"])

section Documents

variable {name name' : String} {rank rank' : Direction} {ss ss' : List DotStatement}

theorem newline_notMem_dotDocument : ∀ l ∈ dotDocument name rank ss, '\n' ∉ l.toList := by
  intro l hl
  simp only [dotDocument, List.mem_cons, List.mem_append, List.mem_map, List.not_mem_nil,
    or_false] at hl
  rcases hl with rfl | rfl | ⟨s, -, rfl⟩ | rfl
  · simp [newline_notMem_dotQuoted]
  · cases rank <;> simp [Direction.letters]
  · exact s.newline_notMem_line
  · simp

/-- The heading tells the name, the line after it the direction, and the other lines the
statements. -/
theorem dotDocument_inj (h : dotDocument name rank ss = dotDocument name' rank' ss') :
    name = name' ∧ rank = rank' ∧ ss = ss' := by
  rw [dotDocument, dotDocument, List.cons.injEq, List.cons.injEq] at h
  obtain ⟨hheading, hdirection, hbody⟩ := h
  rw [String.append_assoc, String.append_assoc, String.append_right_inj] at hheading
  rw [String.append_left_inj, String.append_right_inj] at hdirection
  have hlines := List.append_cancel_right hbody
  exact ⟨(dotQuoted_append_inj hheading).1, letters_injective hdirection,
    List.map_injective_iff.mpr DotStatement.line_injective hlines⟩

theorem unlines_dotDocument_inj
    (h : unlines (dotDocument name rank ss) = unlines (dotDocument name' rank' ss')) :
    name = name' ∧ rank = rank' ∧ ss = ss' :=
  dotDocument_inj (unlines_inj newline_notMem_dotDocument newline_notMem_dotDocument h)

end Documents

/-! ## Diagrams as statements -/

namespace Diagram

def dotStatements (d : Diagram) : List DotStatement :=
  d.initial.toList.map (fun _ => .point startMarker) ++
    d.nodes.map (fun n => .node n.id n.label) ++
    d.initial.toList.map (fun id => .arrow startMarker id none) ++
    d.edges.map fun e => .arrow e.source e.target (some e.label)

theorem filterMap_node?_dotStatements (d : Diagram) :
    d.dotStatements.filterMap DotStatement.node? = d.nodes := by
  simp only [dotStatements, List.filterMap_append, List.filterMap_map, Function.comp_def,
    DotStatement.node?, List.filterMap_none, List.nil_append, List.append_nil]
  exact List.filterMap_some

theorem filterMap_edge?_dotStatements (d : Diagram) :
    d.dotStatements.filterMap DotStatement.edge? = d.edges := by
  simp only [dotStatements, List.filterMap_append, List.filterMap_map, Function.comp_def,
    DotStatement.edge?, List.filterMap_none, List.nil_append]
  exact List.filterMap_some

theorem filterMap_start?_dotStatements (d : Diagram) :
    d.dotStatements.filterMap DotStatement.start? = d.initial.toList := by
  simp only [dotStatements, List.filterMap_append, List.filterMap_map, Function.comp_def,
    DotStatement.start?, List.filterMap_none, List.nil_append, List.append_nil]
  exact List.filterMap_some

theorem length_dotStatements (d : Diagram) : d.dotStatements.length =
    d.nodeCount + d.edgeCount + if d.initial.isSome then 2 else 0 := by
  have hnodes : d.nodes.length = d.nodeCount := List.length_map _
  have hedges : d.edges.length = d.edgeCount := List.length_map _
  simp only [dotStatements, List.length_append, List.length_map, hnodes, hedges]
  cases d.initial with
  | none => simp
  | some id =>
    simp only [Option.toList_some, List.length_singleton, Option.isSome_some, if_true]
    omega

/-- The text of a diagram is the document of its statements. -/
theorem dotLines_eq (d : Diagram) : d.dotLines = dotDocument d.name d.rank d.dotStatements := by
  have hnode (n : Node) : dotNode n = (DotStatement.node n.id n.label).line := by
    simp only [dotNode, DotStatement.line, DotStatement.subject, DotStatement.predicate,
      String.append_assoc]
    rfl
  have hedge (e : Edge) :
      dotEdge e = (DotStatement.arrow e.source e.target (some e.label)).line := by
    simp only [dotEdge, DotStatement.line, DotStatement.subject, DotStatement.predicate,
      String.append_assoc]
    rfl
  have hpoint : s!"    {dotQuoted startMarker} [shape=point, label=\"\"];" =
      (DotStatement.point startMarker).line := by
    simp only [DotStatement.line, DotStatement.subject, DotStatement.predicate,
      String.append_assoc]
    rfl
  have hstart (id : String) : s!"    {dotQuoted startMarker} -> {dotQuoted id};" =
      (DotStatement.arrow startMarker id none).line := by
    simp only [DotStatement.line, DotStatement.subject, DotStatement.predicate,
      String.append_assoc]
    rfl
  simp only [dotLines, dotDocument, dotStatements, List.map_append, List.map_map,
    Function.comp_def, hpoint, hstart, ← hnode, ← hedge]
  simp

theorem newline_notMem_dotLines (d : Diagram) : ∀ l ∈ d.dotLines, '\n' ∉ l.toList := by
  rw [dotLines_eq]
  exact newline_notMem_dotDocument

theorem dotStatements_inj {d e : Diagram} (h : d.dotStatements = e.dotStatements) :
    d.initial = e.initial ∧ d.nodes = e.nodes ∧ d.edges = e.edges := by
  have hinitial : d.initial.toList = e.initial.toList := by
    rw [← filterMap_start?_dotStatements, ← filterMap_start?_dotStatements, h]
  refine ⟨?_, ?_, ?_⟩
  · rw [← Option.head?_toList (o := d.initial), hinitial, Option.head?_toList]
  · rw [← filterMap_node?_dotStatements, ← filterMap_node?_dotStatements, h]
  · rw [← filterMap_edge?_dotStatements, ← filterMap_edge?_dotStatements, h]

/-- **Diagrams with the same text have the same export**, and only they. -/
theorem dot_eq_iff {d e : Diagram} : d.dot = e.dot ↔ d.exported = e.exported := by
  constructor
  · intro h
    rw [dot, dot, dotLines_eq, dotLines_eq] at h
    obtain ⟨hname, hrank, hstatements⟩ := unlines_dotDocument_inj h
    obtain ⟨hinitial, hnodes, hedges⟩ := dotStatements_inj hstatements
    rw [exported, exported, hname, hrank, hinitial, hnodes, hedges]
  · intro h
    obtain ⟨hname, hrank, hinitial, hnodes, hedges⟩ := Export.mk.inj h
    unfold dot dotLines
    rw [hname, hrank, hinitial, hnodes, hedges]

theorem count_dot (d : Diagram) : d.dot.toList.count '\n' =
    d.nodeCount + d.edgeCount + 3 + if d.initial.isSome then 2 else 0 := by
  rw [dot, count_unlines d.newline_notMem_dotLines, dotLines_eq]
  simp only [dotDocument, List.length_cons, List.length_append, List.length_map,
    List.length_nil, length_dotStatements]
  omega

/-- **A DOT text has one reading.**  Two diagrams have the same text if and only if their
names, directions, initial ids, nodes with labels and arrows are the same.  Every statement
stays on one line: there is a line for each node and arrow, three lines around them, and two
more for the mark of an initial node. -/
theorem dot_unambiguous (d e : Diagram) :
    (d.dot = e.dot ↔ d.exported = e.exported) ∧
    (∀ line ∈ d.dotLines, '\n' ∉ line.toList) ∧
    d.dot.toList.count '\n' =
      d.nodeCount + d.edgeCount + 3 + if d.initial.isSome then 2 else 0 :=
  ⟨dot_eq_iff, d.newline_notMem_dotLines, d.count_dot⟩

/-- A drawing that marks an initial node. -/
def pointed : List Call := [.node "A\n\"" "x", .initial "A\n\""]

/-- A drawing whose nodes and arrow look like the mark of an initial node. -/
def disguised : List Call :=
  [.node "__start__" "", .node "A\n\"" "x", .edge "__start__" "A\n\"" ""]

theorem dot_unambiguous_disguised :
    (replay "g" pointed).dot ≠ (replay "g" disguised).dot ∧
    dotNode ⟨"A\n\"", "x"⟩ ∈ (replay "g" pointed).dotLines ∧
    '\n' ∉ (dotNode ⟨"A\n\"", "x"⟩).toList ∧
    (replay "g" pointed).dot.toList.count '\n' = 6 := by
  obtain ⟨hiff, hline, hcount⟩ := dot_unambiguous (replay "g" pointed) (replay "g" disguised)
  have hmem : dotNode ⟨"A\n\"", "x"⟩ ∈ (replay "g" pointed).dotLines := by decide +kernel
  refine ⟨fun h => ?_, hmem, hline _ hmem, hcount⟩
  exact absurd (hiff.mp h) (by decide)

end Diagram

end Transducers
