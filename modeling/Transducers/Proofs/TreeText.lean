import Mathlib.Algebra.BigOperators.Group.List.Basic
import Mathlib.Algebra.GroupWithZero.Nat
import Transducers.Proofs.EscapedText
import Transducers.Proofs.MachineDrawings
import Transducers.Proofs.TreeOutline

/-!
# The lines of a tree

The label of a node is put on one line before it is shown, that of an arrow is shown as it is.
So an entry takes one line unless a symbol, or an output of a Mealy machine, has a line feed.

* `count_intercalate`, `count_unlines_eq`: line feeds of texts put together;
* `newline_notMem_inlined`: what is put on one line has no line feed;
* `Diagram.count_entryLine`: an entry has the line feeds of its arrow's label;
* `Diagram.perm_arrows_blocks`: the arrows of the entries are those of the diagram;
* `OneLineEach`: a text with one line for each root and each arrow;
* `Machine.tree_oneLineEach_iff`: the machines whose trees are such texts.
-/

namespace Transducers

/-! ## Line feeds of texts put together -/

theorem count_intercalate {α : Type} [BEq α] (a : α) (sep : List α) (ls : List (List α)) :
    (sep.intercalate ls).count a =
      (ls.map (List.count a)).sum + (ls.length - 1) * sep.count a := by
  induction ls with
  | nil => simp
  | cons l ls ih =>
    cases ls with
    | nil => simp
    | cons l' ls =>
      rw [List.intercalate_cons_cons, List.count_append, List.count_append, ih]
      simp only [List.map_cons, List.sum_cons, List.length_cons, Nat.add_sub_cancel,
        Nat.succ_mul]
      omega

theorem count_unlines_eq (ls : List String) : (unlines ls).toList.count '\n' =
    ls.length + (ls.map fun l => l.toList.count '\n').sum := by
  rw [toList_unlines]
  induction ls with
  | nil => rfl
  | cons l ls ih =>
    rw [List.flatMap_cons, List.count_append, List.count_append, ih]
    simp only [List.length_cons, List.map_cons, List.sum_cons, List.count_singleton_self]
    omega

/-- Blocks of lines, with an empty line between each two. -/
theorem count_blocks {α : Type} (lines : α → List String) (bs : List α) :
    ("\n".intercalate (bs.map fun b => unlines (lines b))).toList.count '\n' =
      (bs.map fun b => (lines b).length).sum +
        (bs.map fun b => ((lines b).map fun l => l.toList.count '\n').sum).sum +
          (bs.length - 1) := by
  have hblank : "\n".toList.count '\n' = 1 := by decide
  have hblocks : (((bs.map fun b => unlines (lines b)).map String.toList).map
      (List.count '\n')).sum = (bs.map fun b =>
        (lines b).length + ((lines b).map fun l => l.toList.count '\n').sum).sum := by
    simp only [List.map_map, Function.comp_def, count_unlines_eq]
  rw [String.toList_intercalate, count_intercalate, hblank, hblocks, List.sum_map_add,
    List.length_map, List.length_map, Nat.mul_one]

/-! ## Texts on one line -/

theorem newline_notMem_finishLine {reversed : List Char} (h : '\n' ∉ reversed) :
    '\n' ∉ finishLine reversed := by
  unfold finishLine
  split
  · rw [List.mem_reverse]
    exact fun hmem => h (List.mem_cons_of_mem _ hmem)
  · rwa [List.mem_reverse]

theorem newline_notMem_linesAfter {reversed cs : List Char} (h : '\n' ∉ reversed) :
    ∀ l ∈ linesAfter reversed cs, '\n' ∉ l := by
  induction cs generalizing reversed with
  | nil =>
    rw [linesAfter]
    split
    · simp
    · simpa using h
  | cons c cs ih =>
    rw [linesAfter]
    split
    · exact List.forall_mem_cons.mpr ⟨newline_notMem_finishLine h, ih List.not_mem_nil⟩
    · rename_i hc
      exact ih fun hmem => (List.mem_cons.mp hmem).elim (fun heq => hc heq.symm) h

/-- **What is put on one line has no line feed.** -/
theorem newline_notMem_inlined (s : String) : '\n' ∉ (inlined s).toList := by
  have hbar : " | ".toList.count '\n' = 0 := by decide
  have hlines : (((lines s).map String.toList).map (List.count '\n')).sum = 0 := by
    refine List.sum_eq_zero fun n hn => ?_
    simp only [lines, List.map_map, List.mem_map, Function.comp_apply, String.toList_ofList] at hn
    obtain ⟨l, hl, rfl⟩ := hn
    exact List.count_eq_zero.mpr (newline_notMem_linesAfter List.not_mem_nil l hl)
  rw [← List.count_eq_zero, inlined, String.toList_intercalate, count_intercalate, hbar, hlines,
    Nat.mul_zero]

namespace Diagram

theorem newline_notMem_labelAt (d : Diagram) (place : Nat) : '\n' ∉ (d.labelAt place).toList := by
  unfold labelAt
  cases d.vertices[place]? with
  | none => decide
  | some v => exact newline_notMem_inlined v.label

/-! ## Entries -/

theorem newline_notMem_strokes (above : List Bool) : '\n' ∉ (strokes above).toList := by
  rw [strokes, String.toList_join, List.flatMap_map, List.mem_flatMap]
  rintro ⟨last, -, hmem⟩
  revert hmem
  cases last <;> decide

/-- **An entry has the line feeds of its arrow's label**, and no other. -/
theorem count_entryLine (d : Diagram) (e : TreeEntry) :
    (d.entryLine e).toList.count '\n' = e.branch.arrow.label.toList.count '\n' := by
  have hstrokes := List.count_eq_zero.mpr (newline_notMem_strokes e.branch.above)
  have hlabel := List.count_eq_zero.mpr (d.newline_notMem_labelAt e.branch.arrow.target)
  have hcorner : (if e.branch.last then "└─ " else "├─ ").toList.count '\n' = 0 := by
    cases e.branch.last <;> decide
  have harrow : " → ".toList.count '\n' = 0 := by decide
  have hmark : (if e.returns then " ↩" else "").toList.count '\n' = 0 := by
    cases e.returns <;> decide
  simp only [entryLine, String.toList_append, List.count_append, hstrokes, hlabel, hcorner, harrow,
    hmark, Nat.zero_add, Nat.add_zero]

/-- A block has the line feeds of the labels of its arrows, and one more for each line. -/
theorem count_blockLines (d : Diagram) (b : TreeBlock) :
    ((d.blockLines b).map fun l => l.toList.count '\n').sum =
      (b.entries.map fun e => e.branch.arrow.label.toList.count '\n').sum := by
  have hroot := List.count_eq_zero.mpr (d.newline_notMem_labelAt b.root)
  rw [blockLines, List.map_cons, List.sum_cons, hroot, Nat.zero_add, List.map_map]
  exact congrArg List.sum (List.map_congr_left fun e _ => d.count_entryLine e)

end Diagram

theorem Outline.arrows_entries (above : List Bool) (o : Outline) :
    (o.entries above).map (fun e => e.branch.arrow) = o.arrows := by
  induction o generalizing above with
  | done => rfl
  | back a rest ih => simp [entries, arrows, ih]
  | down a below rest ihb ihr => simp [entries, arrows, ihb, ihr]

namespace Diagram

/-- Every diagram is shown as some forest. -/
theorem WellPlaced.exists_shownAs {d : Diagram} (h : d.WellPlaced) :
    ∃ forest, d.ShownAs forest := by
  obtain ⟨forest, shown, hwalk⟩ := d.exists_plants [] d.rootCandidates
  exact ⟨forest, h.shownAs hwalk⟩

/-- The arrows of the entries, block after block, are those of the diagram. -/
theorem perm_arrows_blocks {d : Diagram} {forest : List RootedOutline} (h : d.ShownAs forest) :
    (d.blocks.flatMap fun b => b.entries.map fun e => e.branch.arrow).Perm d.arrows := by
  obtain ⟨shown, hwalk⟩ := h.walk
  have hentries : (d.blocks.flatMap fun b => b.entries.map fun e => e.branch.arrow) =
      forest.flatMap fun t => t.outline.arrows := by
    rw [blocks, hwalk.blocksFrom_eq, List.flatMap_map]
    exact List.flatMap_congr fun t _ => t.outline.arrows_entries []
  rw [hentries]
  exact h.arrows

/-- The lines of the blocks: one for each root and one for each arrow. -/
theorem sum_length_blockLines {d : Diagram} {forest : List RootedOutline} (h : d.ShownAs forest) :
    (d.blocks.map fun b => (d.blockLines b).length).sum = d.blocks.length + d.edgeCount := by
  have hentries := (perm_arrows_blocks h).length_eq
  rw [List.length_flatMap] at hentries
  simp only [blockLines, List.length_cons, List.length_map] at hentries ⊢
  rw [List.sum_map_add, hentries, List.map_const', List.sum_replicate_nat, edgeCount]
  omega

/-- The line feeds inside the lines of the blocks are those of the labels of arrows. -/
theorem sum_count_blockLines {d : Diagram} {forest : List RootedOutline} (h : d.ShownAs forest) :
    (d.blocks.map fun b => ((d.blockLines b).map fun l => l.toList.count '\n').sum).sum =
      (d.edges.map fun e => e.label.toList.count '\n').sum := by
  have hperm := (perm_arrows_blocks h).map fun a => a.label.toList.count '\n'
  have hsum := hperm.sum_eq
  rw [List.map_flatMap, List.flatMap_def, List.sum_flatten] at hsum
  simp only [count_blockLines, edges, List.map_map, Function.comp_def, edge] at hsum ⊢
  exact hsum

/-- **The line feeds of a tree.** -/
theorem count_tree {d : Diagram} {forest : List RootedOutline} (h : d.ShownAs forest) :
    d.tree.toList.count '\n' = d.blocks.length + d.edgeCount + (d.blocks.length - 1) +
      (d.edges.map fun e => e.label.toList.count '\n').sum := by
  rw [tree, count_blocks, sum_length_blockLines h, sum_count_blockLines h]
  omega

end Diagram

/-! ## One line each -/

/-- The text has a block for each root, with an empty line between each two: a line for the
root, and below it lines for arrows, of which there are so many in all.  Every line is ended by
a line feed and has no other. -/
def OneLineEach (roots arrows : Nat) (text : String) : Prop :=
  ∃ blocks : List (String × List String), blocks.length = roots ∧
    (blocks.flatMap Prod.snd).length = arrows ∧
    (∀ b ∈ blocks, ∀ l ∈ b.1 :: b.2, '\n' ∉ l.toList) ∧
    text = "\n".intercalate (blocks.map fun b => unlines (b.1 :: b.2))

/-- Such a text has a line feed for each line and each space between blocks. -/
theorem OneLineEach.count_eq {roots arrows : Nat} {text : String}
    (h : OneLineEach roots arrows text) :
    text.toList.count '\n' = roots + arrows + (roots - 1) := by
  obtain ⟨blocks, rfl, rfl, hlines, rfl⟩ := h
  have hfeeds : (blocks.map fun b => ((b.1 :: b.2).map fun l => l.toList.count '\n').sum).sum =
      0 := by
    refine List.sum_eq_zero fun n hn => ?_
    obtain ⟨b, hb, rfl⟩ := List.mem_map.mp hn
    refine List.sum_eq_zero fun n hn => ?_
    obtain ⟨l, hl, rfl⟩ := List.mem_map.mp hn
    exact List.count_eq_zero.mpr (hlines b hb l hl)
  rw [count_blocks fun b : String × List String => b.1 :: b.2, hfeeds, List.length_flatMap]
  simp only [List.length_cons, List.sum_map_add, List.map_const', List.sum_replicate_nat]
  omega

namespace Diagram

/-- **A tree has one line for each entry unless the label of an arrow has a line feed.** -/
theorem oneLineEach_tree_iff {d : Diagram} {forest : List RootedOutline} (h : d.ShownAs forest) :
    OneLineEach d.blocks.length d.edgeCount d.tree ↔ ∀ e ∈ d.edges, '\n' ∉ e.label.toList := by
  constructor
  · intro hone
    have hcount := hone.count_eq
    rw [count_tree h] at hcount
    have hsum : (d.edges.map fun e => e.label.toList.count '\n').sum = 0 := by omega
    intro e he
    exact List.count_eq_zero.mp (List.sum_eq_zero_iff_forall_eq_nat.mp hsum _ (List.mem_map_of_mem he))
  · intro hedges
    refine ⟨d.blocks.map fun b => (d.labelAt b.root, b.entries.map d.entryLine),
      List.length_map _, ?_, ?_, ?_⟩
    · have hentries := (perm_arrows_blocks h).length_eq
      simpa only [List.flatMap_map, List.length_flatMap, List.length_map, edgeCount] using hentries
    · intro b hb l hl
      obtain ⟨block, hblock, rfl⟩ := List.mem_map.mp hb
      rcases List.mem_cons.mp hl with rfl | hl
      · exact d.newline_notMem_labelAt _
      · obtain ⟨e, he, rfl⟩ := List.mem_map.mp hl
        have harrow : e.branch.arrow ∈ d.arrows :=
          (perm_arrows_blocks h).subset
            (List.mem_flatMap.mpr ⟨block, hblock, List.mem_map_of_mem he⟩)
        rw [← List.count_eq_zero, count_entryLine]
        exact List.count_eq_zero.mpr (hedges _ (List.mem_map_of_mem harrow))
    · rw [tree, List.map_map]
      rfl

end Diagram

namespace Machine

/-- No symbol in the table has a line feed, nor has an output of a Mealy machine. -/
def ArrowsInline : Machine → Prop
  | mealy m => ∀ state symbol t, m.transition state symbol = .ok t →
    '\n' ∉ symbol.toList ∧ '\n' ∉ t.output.toList
  | moore m => ∀ state symbol next, m.transition state symbol = .ok next → '\n' ∉ symbol.toList

theorem arrowsInline_iff {m : Machine} :
    m.ArrowsInline ↔ ∀ e ∈ m.sketch.edges, '\n' ∉ e.label.toList := by
  cases m with
  | mealy m =>
    have hlabel (x o : String) : '\n' ∉ (x ++ "/" ++ o).toList ↔
        '\n' ∉ x.toList ∧ '\n' ∉ o.toList := by
      simp [String.toList_append]
    simp only [ArrowsInline, sketch, Mealy.sketch, Mealy.transition_eq_ok_iff,
      ← Table.mem_cells_iff, List.forall_mem_map, hlabel]
    exact ⟨fun h c hc => h c.1 c.2.1 c.2.2 hc, fun h s x t hc => h (s, x, t) hc⟩
  | moore m =>
    simp only [ArrowsInline, sketch, Moore.sketch, Moore.transition_eq_ok_iff,
      ← Table.mem_cells_iff, List.forall_mem_map]
    exact ⟨fun h c hc => h c.1 c.2.1 c.2.2 hc, fun h s x t hc => h (s, x, t) hc⟩

/-- **The lines of a tree.**  The label of a node has no line feed when it is shown, whatever
the names of the machine are.  The tree has a line feed for each root and each arrow, one for
each space between two blocks, and all that are in the labels of arrows.  So it has one line for
each root and each arrow if and only if no symbol in the table, and no output of a Mealy
machine, has a line feed. -/
theorem tree_oneLineEach_iff (m : Machine) :
    (∀ v ∈ m.diagram.vertices, '\n' ∉ v.inlineLabel.toList) ∧
    m.diagram.tree.toList.count '\n' =
      m.diagram.blocks.length + m.diagram.edgeCount + (m.diagram.blocks.length - 1) +
        (m.sketch.edges.map fun e => e.label.toList.count '\n').sum ∧
    (OneLineEach m.diagram.blocks.length m.diagram.edgeCount m.diagram.tree ↔
      m.ArrowsInline) := by
  obtain ⟨name, hdiagram⟩ := m.exists_diagram_eq
  have hedges : m.diagram.edges = m.sketch.edges := by
    rw [hdiagram]
    exact (m.sketch.shows_replay name).edges
  obtain ⟨forest, hforest⟩ : ∃ forest, m.diagram.ShownAs forest := by
    rw [hdiagram]
    exact (Diagram.records_replay name m.sketch.calls).wellPlaced.exists_shownAs
  refine ⟨fun v _ => newline_notMem_inlined v.label, ?_, ?_⟩
  · rw [Diagram.count_tree hforest, hedges]
  · rw [Diagram.oneLineEach_tree_iff hforest, hedges, arrowsInline_iff]

/-- A Mealy machine with one transition, on a symbol of two lines. -/
def folded : Machine := .mealy ((Mealy.new "A").withTransition "A" "0\n1" "A" "x")

/-- No strokes stand before the second line. -/
theorem tree_folded :
    folded.diagram.tree = "A\n└─ 0\n1/x → A ↩\n" ∧
    ¬ OneLineEach folded.diagram.blocks.length folded.diagram.edgeCount folded.diagram.tree := by
  have htext : folded.diagram.tree = "A\n└─ 0\n1/x → A ↩\n" := by decide +kernel
  refine ⟨htext, fun h => ?_⟩
  have hcount := h.count_eq
  rw [htext] at hcount
  exact absurd hcount (by decide +kernel)

end Machine

end Transducers
