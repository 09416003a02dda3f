import Mathlib.Logic.Relation
import Transducers.Proofs.TreeOutline

/-!
# The blocks of a tree

The walk from a root shows what can be reached from the root along arrows, less what was
shown before.  When a root is taken, no arrow leads out of what was shown, so nothing is
hidden behind it: this is the invariant of the walks from all candidates.

* `Diagram.Reaches`, `Diagram.Sealed`: reaching along arrows, and places that nothing leaves;
* `Walks.mem_iff_reaches`, `Walks.sealed_shown`: one root, and what is shown after it;
* `Plants.introduced_iff`: each tree introduces what its root reaches and no tree before it;
* `Plants.pairwise_roots`, `Plants.root_iff`: which places become roots;
* `Diagram.blocks_classify`: blocks as classes of places, and the order of their roots.
-/

namespace Transducers

/-- The places that a block shows for the first time. -/
def TreeBlock.introduced (b : TreeBlock) : List Nat :=
  b.root :: (b.entries.filter fun e => !e.returns).map fun e => e.branch.arrow.target

theorem Outline.targets_entries (above : List Bool) (o : Outline) :
    ((o.entries above).filter fun e => !e.returns).map (fun e => e.branch.arrow.target) =
      o.introduced := by
  induction o generalizing above with
  | done => rfl
  | back a rest ih => simp [entries, introduced, ih]
  | down a below rest ihb ihr => simp [entries, introduced, ihb, ihr]

theorem RootedOutline.introduced_block (t : RootedOutline) : t.block.introduced = t.introduced := by
  rw [TreeBlock.introduced, block, Outline.targets_entries]
  rfl

/-- The lines of a block: its root, then each entry behind its strokes, with a mark if it
returns. -/
def TreeBlock.lines (d : Diagram) (b : TreeBlock) : List String :=
  d.shownLabel b.root :: b.entries.map fun e =>
    Outline.entryText d (Diagram.strokes e.branch.above) e.branch.last e.branch.arrow ++
      if e.returns then " ↩" else ""

namespace Diagram

theorem blockLines_eq (d : Diagram) (b : TreeBlock) : d.blockLines b = b.lines d := by
  unfold blockLines entryLine TreeBlock.lines Outline.entryText
  simp only [labelAt_eq]

/-- The text is that of the blocks, with an empty line between each two. -/
theorem tree_eq (d : Diagram) :
    d.tree = "\n".intercalate (d.blocks.map fun b => unlines (b.lines d)) := by
  simp only [tree, blockLines_eq]

/-! ## Reaching places -/

/-- An arrow leads from one place to the other. -/
def Leads (d : Diagram) (p q : Nat) : Prop := ∃ a ∈ d.arrows, a.source = p ∧ a.target = q

/-- Arrows lead from one place to the other, one after another; none if they are the same. -/
def Reaches (d : Diagram) : Nat → Nat → Prop := Relation.ReflTransGen d.Leads

/-- No arrow from another place ends here. -/
def Unentered (d : Diagram) (place : Nat) : Prop :=
  ∀ a ∈ d.arrows, a.target = place → a.source = place

/-- No arrow leads out of these places. -/
def Sealed (d : Diagram) (shown : List Nat) : Prop :=
  ∀ a ∈ d.arrows, a.source ∈ shown → a.target ∈ shown

variable {d : Diagram}

theorem mem_arrowsFrom {place : Nat} {a : Arrow} :
    a ∈ d.arrowsFrom place ↔ a ∈ d.arrows ∧ a.source = place := by
  simp [arrowsFrom]

theorem hasIncoming_eq_false_iff {place : Nat} :
    d.hasIncoming place = false ↔ d.Unentered place := by
  simp only [hasIncoming, Unentered, List.any_eq_false, Bool.and_eq_true, beq_iff_eq, bne_iff_ne,
    not_and, not_not]

theorem Sealed.mem_of_reaches {shown : List Nat} (h : d.Sealed shown) {p q : Nat}
    (hp : p ∈ shown) (hr : d.Reaches p q) : q ∈ shown := by
  induction hr with
  | refl => exact hp
  | tail _ hlead ih =>
    obtain ⟨a, ha, rfl, rfl⟩ := hlead
    exact h a ha ih

/-- What no other place points to is reached from itself alone. -/
theorem Unentered.eq_of_reaches {p q : Nat} (hq : d.Unentered q) (hr : d.Reaches p q) : p = q := by
  induction hr with
  | refl => rfl
  | tail _ hlead ih =>
    obtain ⟨a, ha, rfl, rfl⟩ := hlead
    have hsource : a.source = a.target := hq a ha rfl
    rw [hsource] at ih
    exact ih hq

end Diagram

open Diagram

/-- What a row introduces is reached from the target of one of its entries. -/
theorem Outline.exists_reaches {d : Diagram} {o : Outline} (h : o.Whole d) {place : Nat}
    (hp : place ∈ o.introduced) : ∃ a ∈ o.row, d.Reaches a.target place := by
  induction o with
  | done => cases hp
  | back a rest ih =>
    obtain ⟨b, hb, hr⟩ := ih h hp
    exact ⟨b, List.mem_cons_of_mem a hb, hr⟩
  | down a below rest ihb ihr =>
    obtain ⟨hrow, hbelow, hrest⟩ := h
    rw [introduced, List.mem_cons, List.mem_append] at hp
    rcases hp with rfl | hp | hp
    · exact ⟨a, List.mem_cons_self, .refl⟩
    · obtain ⟨b, hb, hr⟩ := ihb hbelow hp
      rw [hrow, mem_arrowsFrom] at hb
      exact ⟨a, List.mem_cons_self, .head ⟨b, hb.1, hb.2, rfl⟩ hr⟩
    · obtain ⟨b, hb, hr⟩ := ihr hrest hp
      exact ⟨b, List.mem_cons_of_mem a hb, hr⟩

theorem RootedOutline.reaches {d : Diagram} {t : RootedOutline} (h : t.Whole d) {place : Nat}
    (hp : place ∈ t.introduced) : d.Reaches t.root place := by
  obtain ⟨hrow, hbelow⟩ := h
  rcases List.mem_cons.mp hp with rfl | hp
  · exact .refl
  · obtain ⟨a, ha, hr⟩ := Outline.exists_reaches hbelow hp
    rw [hrow, mem_arrowsFrom] at ha
    exact .head ⟨a, ha.1, ha.2, rfl⟩ hr

namespace Diagram

variable {d : Diagram}

/-! ## One root -/

namespace Walks

variable {shown shown' : List Nat} {as : List Arrow} {o : Outline}

theorem introduced_notMem (h : d.Walks shown as o shown') : ∀ p ∈ o.introduced, p ∉ shown := by
  induction h with
  | done => simp [Outline.introduced]
  | back _ _ ih => exact ih
  | down new deeper _ ihb ihr =>
    intro p hp hs
    rw [Outline.introduced, List.mem_cons, List.mem_append] at hp
    rcases hp with rfl | hp | hp
    · exact new hs
    · exact ihb p hp (List.mem_cons_of_mem _ hs)
    · exact ihr p hp (deeper.subset (List.mem_cons_of_mem _ hs))

/-- Every entry, with a mark or without, shows a place. -/
theorem target_mem (h : d.Walks shown as o shown') : ∀ a ∈ o.arrows, a.target ∈ shown' := by
  induction h with
  | done => simp [Outline.arrows]
  | back old next ih => exact List.forall_mem_cons.mpr ⟨next.subset old, ih⟩
  | down _ deeper next ihb ihr =>
    rw [Outline.arrows, List.forall_mem_cons, List.forall_mem_append]
    exact ⟨next.subset (deeper.subset List.mem_cons_self), fun a ha => next.subset (ihb a ha), ihr⟩

section Root

variable {place : Nat} {below : Outline}
  (deeper : d.Walks (place :: shown) (d.arrowsFrom place) below shown') (hs : d.Sealed shown)
include deeper hs

/-- **After a root, again no arrow leads out of what is shown.**  An arrow that leaves a new
place has an entry below it. -/
theorem sealed_shown : d.Sealed shown' := by
  have hentry : ∀ p ∈ place :: below.introduced, ∀ a ∈ d.arrowsFrom p, a.target ∈ shown' := by
    intro p hp a ha
    apply deeper.target_mem
    rw [(Outline.perm_arrows deeper.whole).mem_iff, deeper.row_eq, ← List.flatMap_cons]
    exact List.mem_flatMap.mpr ⟨p, hp, ha⟩
  intro a ha hsource
  rw [deeper.shown_eq, List.mem_append, List.mem_reverse, List.mem_cons] at hsource
  have hfrom : a ∈ d.arrowsFrom a.source := mem_arrowsFrom.mpr ⟨ha, rfl⟩
  rcases hsource with hp | hp | hp
  · exact hentry _ (List.mem_cons_of_mem _ hp) a hfrom
  · exact hentry _ (List.mem_cons.mpr (Or.inl hp)) a hfrom
  · exact deeper.subset (List.mem_cons_of_mem _ (hs a ha hp))

/-- **A root introduces what it reaches**, unless it was shown before. -/
theorem mem_iff_reaches (new : place ∉ shown) {p : Nat} :
    p ∈ place :: below.introduced ↔ d.Reaches place p ∧ p ∉ shown := by
  constructor
  · intro hp
    refine ⟨RootedOutline.reaches (t := ⟨place, below⟩) ⟨deeper.row_eq, deeper.whole⟩ hp, ?_⟩
    rcases List.mem_cons.mp hp with rfl | hp
    · exact new
    · exact fun hmem => deeper.introduced_notMem p hp (List.mem_cons_of_mem _ hmem)
  · rintro ⟨hr, hp⟩
    have hroot : place ∈ shown' := deeper.subset List.mem_cons_self
    have hmem := (deeper.sealed_shown hs).mem_of_reaches hroot hr
    rw [deeper.shown_eq, List.mem_append, List.mem_reverse, List.mem_cons] at hmem
    rw [List.mem_cons]
    tauto

end Root

end Walks

/-! ## All roots -/

namespace Plants

variable {shown shown' places : List Nat} {forest : List RootedOutline}

/-- Walks from places in turn, cut in two. -/
theorem of_append {more : List Nat} (h : d.Plants shown (places ++ more) forest shown') :
    ∃ before after between, forest = before ++ after ∧ d.Plants shown places before between ∧
      d.Plants between more after shown' := by
  induction places generalizing shown forest with
  | nil => exact ⟨[], forest, shown, rfl, .done, h⟩
  | cons place places ih =>
    cases h with
    | pass old next =>
      obtain ⟨before, after, between, hforest, hbefore, hafter⟩ := ih next
      exact ⟨before, after, between, hforest, .pass old hbefore, hafter⟩
    | root new deeper next =>
      obtain ⟨before, after, between, hforest, hbefore, hafter⟩ := ih next
      exact ⟨_ :: before, after, between, congrArg _ hforest, .root new deeper hbefore, hafter⟩

theorem roots_sublist (h : d.Plants shown places forest shown') :
    (forest.map RootedOutline.root).Sublist places := by
  induction h with
  | done => exact .slnil
  | pass _ _ ih => exact .cons _ ih
  | root _ _ _ ih => exact .cons_cons _ ih

theorem roots_notMem (h : d.Plants shown places forest shown') : ∀ t ∈ forest, t.root ∉ shown := by
  induction h with
  | done => simp
  | pass _ _ ih => exact ih
  | root new deeper _ ih =>
    exact List.forall_mem_cons.mpr
      ⟨new, fun t ht hs => ih t ht (deeper.subset (List.mem_cons_of_mem _ hs))⟩

theorem sealed_shown (h : d.Plants shown places forest shown') (hs : d.Sealed shown) :
    d.Sealed shown' := by
  induction h with
  | done => exact hs
  | pass _ _ ih => exact ih hs
  | root _ deeper _ ih => exact ih (deeper.sealed_shown hs)

/-- **Each tree introduces what its root reaches**, less what was shown before. -/
theorem introduced_iff (h : d.Plants shown places forest shown') (hs : d.Sealed shown)
    {before after : List RootedOutline} {t : RootedOutline} (hforest : forest = before ++ t :: after)
    {p : Nat} : p ∈ t.introduced ↔
      d.Reaches t.root p ∧ p ∉ shown ∧ ∀ t' ∈ before, p ∉ t'.introduced := by
  induction h generalizing before with
  | done => simp at hforest
  | pass _ _ ih => exact ih hs hforest
  | root new deeper next ih =>
    cases before with
    | nil =>
      cases hforest
      simpa [RootedOutline.introduced] using deeper.mem_iff_reaches hs new
    | cons t' before =>
      obtain ⟨rfl, htail⟩ := List.cons.inj hforest
      rw [ih (deeper.sealed_shown hs) htail, deeper.shown_eq, List.forall_mem_cons,
        RootedOutline.introduced]
      simp only [List.mem_append, List.mem_reverse, List.mem_cons]
      tauto

/-- After the walks, what the roots reach is shown, and nothing else is new. -/
theorem mem_shown_iff (h : d.Plants shown places forest shown') (hs : d.Sealed shown) {p : Nat} :
    p ∈ shown' ↔ p ∈ shown ∨ ∃ r ∈ forest.map RootedOutline.root, d.Reaches r p := by
  constructor
  · intro hp
    rw [h.shown_eq, List.mem_append, List.mem_reverse] at hp
    rcases hp with hp | hp
    · obtain ⟨t, ht, hp⟩ := List.mem_flatMap.mp hp
      exact Or.inr ⟨t.root, List.mem_map_of_mem ht, RootedOutline.reaches (h.whole t ht) hp⟩
    · exact Or.inl hp
  · rintro (hp | ⟨r, hr, hreach⟩)
    · exact h.subset hp
    · exact (h.sealed_shown hs).mem_of_reaches (h.places_subset (h.roots_sublist.subset hr)) hreach

/-- **No root is reached from a root before it.** -/
theorem pairwise_roots (h : d.Plants shown places forest shown') (hs : d.Sealed shown) :
    (forest.map RootedOutline.root).Pairwise fun r p => ¬ d.Reaches r p := by
  induction h with
  | done => exact .nil
  | pass _ _ ih => exact ih hs
  | root _ deeper next ih =>
    have hsealed := deeper.sealed_shown hs
    refine .cons (fun p hp hr => ?_) (ih hsealed)
    obtain ⟨t, ht, rfl⟩ := List.mem_map.mp hp
    exact next.roots_notMem t ht
      (hsealed.mem_of_reaches (deeper.subset List.mem_cons_self) hr)

/-- **Of candidates in the order of the diagram**, those become roots that were not shown and
are not reached from a root before them. -/
theorem root_iff (h : d.Plants shown places forest shown') (hs : d.Sealed shown)
    (horder : places.Pairwise (· < ·)) {p : Nat} :
    p ∈ forest.map RootedOutline.root ↔
      p ∈ places ∧ p ∉ shown ∧ ∀ r ∈ forest.map RootedOutline.root, r < p → ¬ d.Reaches r p := by
  induction h with
  | done => simp
  | pass old _ ih =>
    rw [List.pairwise_cons] at horder
    rw [ih hs horder.2, List.mem_cons]
    constructor
    · rintro ⟨hp, hnew, hfree⟩
      exact ⟨Or.inr hp, hnew, hfree⟩
    · rintro ⟨rfl | hp, hnew, hfree⟩
      · exact absurd old hnew
      · exact ⟨hp, hnew, hfree⟩
  | @root shown between _ places place below forest new deeper next ih =>
    obtain ⟨hfirst, hrest⟩ := List.pairwise_cons.mp horder
    have hlater : ∀ r ∈ forest.map RootedOutline.root, place < r :=
      fun r hr => hfirst r (next.roots_sublist.subset hr)
    have hbetween : p ∈ between ↔ p ∈ shown ∨ d.Reaches place p := by
      have hroot := deeper.mem_iff_reaches hs new (p := p)
      rw [deeper.shown_eq]
      simp only [List.mem_append, List.mem_reverse, List.mem_cons] at hroot ⊢
      tauto
    rw [List.map_cons, List.mem_cons, ih (deeper.sealed_shown hs) hrest, hbetween, not_or,
      List.forall_mem_cons, List.mem_cons]
    constructor
    · rintro (rfl | ⟨hp, ⟨hnew, hreach⟩, hfree⟩)
      · refine ⟨Or.inl rfl, new, fun hlt => absurd hlt (Nat.lt_irrefl _), fun r hr hlt => ?_⟩
        exact absurd hlt (Nat.not_lt.mpr (Nat.le_of_lt (hlater r hr)))
      · exact ⟨Or.inr hp, hnew, fun _ => hreach, hfree⟩
    · rintro ⟨rfl | hp, hnew, hreach, hfree⟩
      · exact Or.inl rfl
      · exact Or.inr ⟨hp, ⟨hnew, hreach (hfirst p hp)⟩, hfree⟩

end Plants

/-! ## Blocks -/

/-- The roots of the blocks, in order. -/
def roots (d : Diagram) : List Nat := d.blocks.map TreeBlock.root

instance (d : Diagram) (place : Nat) : Decidable (d.Unentered place) :=
  inferInstanceAs (Decidable (∀ a ∈ d.arrows, a.target = place → a.source = place))

theorem sealed_nil : d.Sealed [] := fun _ _ h => absurd h List.not_mem_nil

section Forest

variable {forest : List RootedOutline} {shown : List Nat}
  (h : d.Plants [] d.rootCandidates forest shown)
include h

theorem blocks_eq : d.blocks = forest.map RootedOutline.block := h.blocksFrom_eq

theorem roots_eq : d.roots = forest.map RootedOutline.root := by
  rw [roots, blocks_eq h, List.map_map]
  rfl

/-- What a block introduces. -/
theorem mem_introduced_block {before after : List TreeBlock} {b : TreeBlock}
    (hb : d.blocks = before ++ b :: after) {p : Nat} :
    p ∈ b.introduced ↔ d.Reaches b.root p ∧ ∀ b' ∈ before, p ∉ b'.introduced := by
  rw [blocks_eq h, List.map_eq_append_iff] at hb
  obtain ⟨ts, us, hforest, rfl, hus⟩ := hb
  obtain ⟨t, us, rfl, rfl, rfl⟩ := List.map_eq_cons_iff.mp hus
  have ht := h.introduced_iff sealed_nil hforest (p := p)
  rw [RootedOutline.introduced_block, ht, List.forall_mem_map]
  simp only [RootedOutline.introduced_block, List.not_mem_nil, not_false_eq_true, true_and]
  rfl

/-- The roots, as the candidates give them: the initial place, the places that no other place
points to, and then places that no root before them reaches. -/
theorem exists_roots_eq : ∃ unentered further,
    d.roots = d.start.toList ++ unentered ++ further ∧
    unentered.Pairwise (· < ·) ∧ further.Pairwise (· < ·) ∧
    (∀ p, p ∈ unentered ↔ p < d.nodeCount ∧ d.Unentered p ∧ d.start ≠ some p) ∧
    ∀ p, p ∈ further ↔ p < d.nodeCount ∧
      (∀ r ∈ d.start.toList ++ unentered, ¬ d.Reaches r p) ∧
      ∀ r ∈ further, r < p → ¬ d.Reaches r p := by
  have hplaces : (List.range d.vertices.length).Pairwise (· < ·) := List.pairwise_lt_range
  -- the walks from the three groups of candidates
  obtain ⟨ts, thirds, s₂, rfl, hts, hthirds⟩ := h.of_append
  obtain ⟨firsts, seconds, s₁, rfl, hfirsts, hseconds⟩ := hts.of_append
  have hs₁ := hfirsts.sealed_shown sealed_nil
  have hs₂ := hseconds.sealed_shown hs₁
  have hstart : firsts.map RootedOutline.root = d.start.toList := by
    cases hd : d.start with
    | none =>
      rw [hd] at hfirsts
      cases hfirsts
      rfl
    | some place =>
      rw [hd] at hfirsts
      cases hfirsts with
      | pass old _ => cases old
      | root _ _ next =>
        cases next
        rfl
  refine ⟨seconds.map RootedOutline.root, thirds.map RootedOutline.root, ?_,
    (hplaces.filter _).sublist hseconds.roots_sublist, hplaces.sublist hthirds.roots_sublist,
    fun p => ?_, fun p => ?_⟩
  · rw [roots_eq h, List.map_append, List.map_append, hstart]
  · rw [hseconds.root_iff hs₁ (hplaces.filter _), hfirsts.mem_shown_iff sealed_nil, hstart,
      List.mem_filter, List.mem_range, Bool.not_eq_true', hasIncoming_eq_false_iff]
    simp only [List.not_mem_nil, false_or, Option.mem_toList]
    constructor
    · rintro ⟨⟨hp, hfree⟩, hnew, -⟩
      exact ⟨hp, hfree, fun heq => hnew ⟨p, heq, .refl⟩⟩
    · rintro ⟨hp, hfree, hne⟩
      -- nothing reaches such a place but itself
      refine ⟨⟨hp, hfree⟩, ?_, fun r _ hlt hr => ?_⟩
      · rintro ⟨r, hr, hreach⟩
        exact hne (hfree.eq_of_reaches hreach ▸ hr)
      · exact absurd (hfree.eq_of_reaches hr) (Nat.ne_of_lt hlt)
  · rw [hthirds.root_iff hs₂ hplaces, hts.mem_shown_iff sealed_nil, List.map_append, hstart,
      List.mem_range]
    simp only [List.not_mem_nil, false_or, not_exists, not_and]
    rfl

end Forest

/-- **Blocks are classes of nodes.**  The text is that of the blocks, one after another, each
with the line of its root on top.  The block of the initial node comes first and introduces
what the initial node reaches; each block introduces what its root reaches, less what an
earlier block introduces.  Roots are the initial node, then all others that no other node
points to, then further nodes, each group in the order of the diagram; a further node becomes
a root exactly when no root before it reaches it. -/
theorem blocks_classify (name : String) (calls : List Call) :
    -- the text
    (replay name calls).tree = "\n".intercalate
      ((replay name calls).blocks.map fun b => unlines (b.lines (replay name calls))) ∧
    -- the first block
    (∀ start, (replay name calls).start = some start → ∃ b rest,
      (replay name calls).blocks = b :: rest ∧ b.root = start ∧
      ∀ p, p ∈ b.introduced ↔ (replay name calls).Reaches start p) ∧
    -- every block
    (∀ before b after, (replay name calls).blocks = before ++ b :: after → ∀ p,
      p ∈ b.introduced ↔
        (replay name calls).Reaches b.root p ∧ ∀ b' ∈ before, p ∉ b'.introduced) ∧
    -- roots
    (∀ p, p < (replay name calls).nodeCount → (replay name calls).Unentered p →
      p ∈ (replay name calls).roots) ∧
    ((replay name calls).roots.Pairwise fun r p => ¬ (replay name calls).Reaches r p) ∧
    ∃ unentered further,
      (replay name calls).roots = (replay name calls).start.toList ++ unentered ++ further ∧
      unentered.Pairwise (· < ·) ∧ further.Pairwise (· < ·) ∧
      (∀ p, p ∈ unentered ↔ p < (replay name calls).nodeCount ∧
        (replay name calls).Unentered p ∧ (replay name calls).start ≠ some p) ∧
      ∀ p, p ∈ further ↔ p < (replay name calls).nodeCount ∧
        (∀ r ∈ (replay name calls).start.toList ++ unentered, ¬ (replay name calls).Reaches r p) ∧
        ∀ r ∈ further, r < p → ¬ (replay name calls).Reaches r p := by
  obtain ⟨forest, shown, h⟩ := (replay name calls).exists_plants [] (replay name calls).rootCandidates
  obtain ⟨unentered, further, hroots, hchosen⟩ := exists_roots_eq h
  refine ⟨tree_eq _, fun start hstart => ?_, fun before b after hb p => mem_introduced_block h hb,
    fun p hp hfree => ?_, ?_, unentered, further, hroots, hchosen⟩
  · rw [hstart, roots, Option.toList_some, List.append_assoc, List.singleton_append,
      List.map_eq_cons_iff] at hroots
    obtain ⟨b, rest, hblocks, rfl, -⟩ := hroots
    refine ⟨b, rest, hblocks, rfl, fun p => ?_⟩
    have hfirst : (replay name calls).blocks = [] ++ b :: rest := hblocks
    have hb := mem_introduced_block h hfirst (p := p)
    simpa using hb
  · rw [hroots, List.mem_append, List.mem_append, Option.mem_toList]
    by_cases hp' : (replay name calls).start = some p
    · exact Or.inl (Or.inl hp')
    · exact Or.inl (Or.inr ((hchosen.2.2.1 p).mpr ⟨hp, hfree, hp'⟩))
  · rw [roots_eq h]
    exact h.pairwise_roots sealed_nil

/-- Two nodes that point to each other, drawn before a node that no node points to and an
initial node that points to itself. -/
def scattered : List Call :=
  [.edge "C" "D" "0", .edge "D" "C" "1", .edge "E" "B" "0", .edge "A" "B" "0", .edge "A" "A" "1",
    .initial "A"]

/-- The second root reaches a node that the first block introduces. -/
theorem blocks_classify_scattered :
    (replay "g" scattered).start = some 4 ∧
    (∃ b rest, (replay "g" scattered).blocks = b :: rest ∧ b.root = 4 ∧
      ∀ p, p ∈ b.introduced ↔ (replay "g" scattered).Reaches 4 p) ∧
    (∃ before b after, (replay "g" scattered).blocks = before ++ b :: after ∧ b.root = 2 ∧
      (replay "g" scattered).Reaches 2 3 ∧ 3 ∉ b.introduced) ∧
    2 < (replay "g" scattered).nodeCount ∧ (replay "g" scattered).Unentered 2 ∧
    2 ∈ (replay "g" scattered).roots := by
  obtain ⟨-, hfirst, hblock, hfree, -, -⟩ := blocks_classify "g" scattered
  have hblocks : (replay "g" scattered).blocks =
      [⟨4, [⟨⟨[], false, ⟨4, 3, "0"⟩⟩, false⟩, ⟨⟨[], true, ⟨4, 4, "1"⟩⟩, true⟩]⟩] ++
        ⟨2, [⟨⟨[], true, ⟨2, 3, "0"⟩⟩, true⟩]⟩ ::
        [⟨0, [⟨⟨[], true, ⟨0, 1, "0"⟩⟩, false⟩, ⟨⟨[true], true, ⟨1, 0, "1"⟩⟩, true⟩]⟩] := by cbv
  have hleads : (replay "g" scattered).Leads 2 3 := ⟨⟨2, 3, "0"⟩, by decide, rfl, rfl⟩
  refine ⟨by decide, hfirst 4 (by decide), ⟨_, _, _, hblocks, rfl, .single hleads, fun hmem => ?_⟩,
    by decide, by decide, hfree 2 (by decide) (by decide)⟩
  have hearlier := ((hblock _ _ _ hblocks 3).mp hmem).2 _ List.mem_cons_self
  exact hearlier (by decide)

end Diagram

end Transducers
