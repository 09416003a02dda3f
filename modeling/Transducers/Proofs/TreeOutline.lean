import Mathlib.Data.List.Perm.Basic
import Transducers.Diagram.Tree
import Transducers.Proofs.Drawings

/-!
# The outline of a diagram

A diagram is shown as a forest: each arrow is an entry in the row of its source, and
below an entry that shows its target for the first time comes the row of the target.
The walk through the diagram keeps a list of arrows that wait; here it is a recursion on
the tree that it makes.

* `Diagram.shownLabel`: the label of a node on one line;
* `Outline`, `RootedOutline`: rows of entries, and a root with a row below it;
* `Diagram.Walks`, `Diagram.Plants`: which forest a depth-first walk makes;
* `exists_walks`, `exists_plants`: every walk ends;
* `Walks.explore_eq`, `Plants.blocksFrom_eq`: the walk with waiting arrows makes it too;
* `perm_arrows`, `length_arrows`: the entries of an outline, counted in two ways;
* `tree_shows_all`: every arrow has one entry, and every node is introduced once.
-/

namespace Transducers

/-- The label of a node on one line, with bars between its lines. -/
def Diagram.shownLabel (d : Diagram) (place : Nat) : String :=
  match d.vertices[place]? with
  | some v => " | ".intercalate (lines v.label)
  | none => "?"

theorem Diagram.labelAt_eq (d : Diagram) (place : Nat) : d.labelAt place = d.shownLabel place := by
  unfold labelAt shownLabel
  cases d.vertices[place]? <;> rfl

/-- A row of entries, each with what is below it: nothing if the arrow returns to a
place that was shown before, else another row. -/
inductive Outline
  | done
  | back (arrow : Arrow) (rest : Outline)
  | down (arrow : Arrow) (below rest : Outline)
  deriving DecidableEq, Repr

namespace Outline

/-- The arrows of the row itself. -/
def row : Outline → List Arrow
  | done => []
  | back a rest => a :: rest.row
  | down a _ rest => a :: rest.row

/-- The arrows of the row and of the rows below, line by line. -/
def arrows : Outline → List Arrow
  | done => []
  | back a rest => a :: rest.arrows
  | down a below rest => a :: (below.arrows ++ rest.arrows)

/-- The places that entries without a mark show for the first time. -/
def introduced : Outline → List Nat
  | done => []
  | back _ rest => rest.introduced
  | down a below rest => a.target :: (below.introduced ++ rest.introduced)

/-- The arrows of the entries with a mark. -/
def returning : Outline → List Arrow
  | done => []
  | back a rest => a :: rest.returning
  | down _ below rest => below.returning ++ rest.returning

/-- Below each entry without a mark are the arrows that leave its target, in order. -/
def Whole (d : Diagram) : Outline → Prop
  | done => True
  | back _ rest => rest.Whole d
  | down a below rest => below.row = d.arrowsFrom a.target ∧ below.Whole d ∧ rest.Whole d

def isDone : Outline → Bool
  | done => true
  | _ => false

/-- An entry without its mark, behind the strokes of the rows above; the last entry of a
row has a corner. -/
def entryText (d : Diagram) (margin : String) (last : Bool) (a : Arrow) : String :=
  margin ++ (if last then "└─ " else "├─ ") ++ a.label ++ " → " ++ d.shownLabel a.target

/-- The lines of a row and of the rows below: below the last entry there is no stroke. -/
def lines (d : Diagram) (margin : String) : Outline → List String
  | done => []
  | back a rest => (entryText d margin rest.isDone a ++ " ↩") :: rest.lines d margin
  | down a below rest =>
    entryText d margin rest.isDone a ::
      (below.lines d (margin ++ if rest.isDone then "    " else "│   ") ++ rest.lines d margin)

/-- The entries of a row, whose place in the tree is given by the rows above. -/
def entries (above : List Bool) : Outline → List TreeEntry
  | done => []
  | back a rest => ⟨⟨above, rest.isDone, a⟩, true⟩ :: rest.entries above
  | down a below rest =>
    ⟨⟨above, rest.isDone, a⟩, false⟩ ::
      (below.entries (above ++ [rest.isDone]) ++ rest.entries above)

theorem isDone_eq (o : Outline) : o.isDone = o.row.isEmpty := by
  cases o <;> rfl

theorem map_entryLine_entries (d : Diagram) (above : List Bool) (o : Outline) :
    (o.entries above).map d.entryLine = o.lines d (Diagram.strokes above) := by
  induction o generalizing above with
  | done => rfl
  | back a rest ih => simp [entries, lines, entryText, Diagram.entryLine, Diagram.labelAt_eq, ih]
  | down a below rest ihb ihr =>
    have hstrokes : Diagram.strokes (above ++ [rest.isDone]) =
        Diagram.strokes above ++ if rest.isDone then "    " else "│   " := by
      simp [Diagram.strokes]
    simp [entries, lines, entryText, Diagram.entryLine, Diagram.labelAt_eq, ihb, ihr, hstrokes]

/-! ## Counting entries -/

/-- The entries are the row, and the arrows that leave what is introduced. -/
theorem perm_arrows {d : Diagram} {o : Outline} (h : o.Whole d) :
    o.arrows.Perm (o.row ++ o.introduced.flatMap d.arrowsFrom) := by
  induction o with
  | done => exact .nil
  | back a rest ih => exact (ih h).cons a
  | down a below rest ihb ihr =>
    obtain ⟨hrow, hbelow, hrest⟩ := h
    have hb := ihb hbelow
    rw [hrow] at hb
    -- the row below comes before the rest of this row, so two blocks change places
    refine .cons a ?_
    rw [introduced, List.flatMap_cons, List.flatMap_append, ← List.append_assoc _ _
      (rest.introduced.flatMap d.arrowsFrom)]
    exact (hb.append (ihr hrest)).trans (List.perm_append_comm_assoc _ _ _)

/-- Each entry introduces a place or has a mark. -/
theorem length_arrows (o : Outline) :
    o.arrows.length = o.introduced.length + o.returning.length := by
  induction o with
  | done => rfl
  | back a rest ih =>
    simp only [arrows, introduced, returning, List.length_cons, ih]
    omega
  | down a below rest ihb ihr =>
    simp only [arrows, introduced, returning, List.length_cons, List.length_append, ihb, ihr]
    omega

/-- What is introduced is the target of an arrow. -/
theorem exists_arrow_of_introduced {o : Outline} {place : Nat} (h : place ∈ o.introduced) :
    ∃ a ∈ o.arrows, a.target = place := by
  induction o with
  | done => cases h
  | back a rest ih =>
    obtain ⟨b, hb, ht⟩ := ih h
    exact ⟨b, List.mem_cons_of_mem a hb, ht⟩
  | down a below rest ihb ihr =>
    rw [introduced, List.mem_cons, List.mem_append] at h
    simp only [arrows, List.mem_cons, List.mem_append]
    rcases h with rfl | h | h
    · exact ⟨a, Or.inl rfl, rfl⟩
    · obtain ⟨b, hb, ht⟩ := ihb h
      exact ⟨b, Or.inr (Or.inl hb), ht⟩
    · obtain ⟨b, hb, ht⟩ := ihr h
      exact ⟨b, Or.inr (Or.inr hb), ht⟩

end Outline

/-- A root and the row below it. -/
structure RootedOutline where
  root : Nat
  outline : Outline
  deriving DecidableEq, Repr

namespace RootedOutline

def introduced (t : RootedOutline) : List Nat := t.root :: t.outline.introduced

/-- Below the root are the arrows that leave it, in order, and so on. -/
def Whole (d : Diagram) (t : RootedOutline) : Prop :=
  t.outline.row = d.arrowsFrom t.root ∧ t.outline.Whole d

def lines (d : Diagram) (t : RootedOutline) : List String :=
  d.shownLabel t.root :: t.outline.lines d ""

def block (t : RootedOutline) : TreeBlock := ⟨t.root, t.outline.entries []⟩

theorem blockLines_block (d : Diagram) (t : RootedOutline) : d.blockLines t.block = t.lines d := by
  rw [Diagram.blockLines, lines, block, Outline.map_entryLine_entries, Diagram.labelAt_eq]
  rfl

theorem perm_arrows {d : Diagram} {t : RootedOutline} (h : t.Whole d) :
    t.outline.arrows.Perm (t.introduced.flatMap d.arrowsFrom) := by
  have ho := Outline.perm_arrows h.2
  rw [h.1] at ho
  exact ho

end RootedOutline

namespace Diagram

/-! ## The walk -/

/-- A walk along arrows, with the places shown before and after it: an arrow to a place
that was shown returns, and any other goes down to the arrows that leave its target. -/
inductive Walks (d : Diagram) : List Nat → List Arrow → Outline → List Nat → Prop
  | done {shown : List Nat} : Walks d shown [] .done shown
  | back {shown shown' : List Nat} {a : Arrow} {as : List Arrow} {rest : Outline}
      (old : a.target ∈ shown) (next : Walks d shown as rest shown') :
      Walks d shown (a :: as) (.back a rest) shown'
  | down {shown shown' shown'' : List Nat} {a : Arrow} {as : List Arrow} {below rest : Outline}
      (new : a.target ∉ shown)
      (deeper : Walks d (a.target :: shown) (d.arrowsFrom a.target) below shown')
      (next : Walks d shown' as rest shown'') :
      Walks d shown (a :: as) (.down a below rest) shown''

/-- Walks from places in turn, with the places shown before and after: a place that was
shown is passed over, and any other is a root. -/
inductive Plants (d : Diagram) : List Nat → List Nat → List RootedOutline → List Nat → Prop
  | done {shown : List Nat} : Plants d shown [] [] shown
  | pass {shown shown' places : List Nat} {place : Nat} {forest : List RootedOutline}
      (old : place ∈ shown) (next : Plants d shown places forest shown') :
      Plants d shown (place :: places) forest shown'
  | root {shown shown' shown'' places : List Nat} {place : Nat} {below : Outline}
      {forest : List RootedOutline} (new : place ∉ shown)
      (deeper : Walks d (place :: shown) (d.arrowsFrom place) below shown')
      (next : Plants d shown' places forest shown'') :
      Plants d shown (place :: places) (⟨place, below⟩ :: forest) shown''

theorem branches_cons (above : List Bool) (a : Arrow) (as : List Arrow) :
    branches above (a :: as) = ⟨above, as.isEmpty, a⟩ :: branches above as := by
  cases as <;> rfl

theorem unshown_le {d : Diagram} {shown shown' : List Nat} (h : shown ⊆ shown') :
    d.unshown shown' ≤ d.unshown shown := by
  refine (List.monotone_filter_right _ fun a ha => ?_).length_le
  simp only [decide_eq_true_eq] at ha ⊢
  exact fun hs => ha (h hs)

namespace Walks

variable {d : Diagram} {shown shown' : List Nat} {as : List Arrow} {o : Outline}

theorem row_eq (h : d.Walks shown as o shown') : o.row = as := by
  induction h with
  | done => rfl
  | back _ _ ih => rw [Outline.row, ih]
  | down _ _ _ _ ih => rw [Outline.row, ih]

theorem whole (h : d.Walks shown as o shown') : o.Whole d := by
  induction h with
  | done => trivial
  | back _ _ ih => exact ih
  | down _ deeper _ ihb ihr => exact ⟨deeper.row_eq, ihb, ihr⟩

/-- What is shown after the walk, the last place first. -/
theorem shown_eq (h : d.Walks shown as o shown') : shown' = o.introduced.reverse ++ shown := by
  induction h with
  | done => rfl
  | back _ _ ih => exact ih
  | down _ _ _ ihb ihr =>
    rw [ihr, ihb, Outline.introduced]
    simp

theorem nodup (h : d.Walks shown as o shown') (hn : shown.Nodup) : shown'.Nodup := by
  induction h with
  | done => exact hn
  | back _ _ ih => exact ih hn
  | down new _ _ ihb ihr => exact ihr (ihb (List.nodup_cons.mpr ⟨new, hn⟩))

theorem subset (h : d.Walks shown as o shown') : shown ⊆ shown' := by
  rw [h.shown_eq]
  exact List.subset_append_right _ _

/-- The walk with waiting arrows goes through the arrows of a row, and on with the others. -/
theorem explore_eq (h : d.Walks shown as o shown') (above : List Bool) (waiting : List Branch) :
    d.explore (branches above as ++ waiting) shown =
      (o.entries above ++ (d.explore waiting shown').1, (d.explore waiting shown').2) := by
  induction h generalizing above waiting with
  | done => rfl
  | back old next ih =>
    rw [branches_cons, List.cons_append, explore, if_pos old, ih, ← next.row_eq,
      ← Outline.isDone_eq]
    rfl
  | @down _ _ _ _ as _ _ new _ next ihb ihr =>
    have hbelow := ihb (above ++ [as.isEmpty]) (branches above as ++ waiting)
    rw [branches_cons, List.cons_append, explore, if_neg new]
    simp only [hbelow, ihr, Outline.entries, Outline.isDone_eq, next.row_eq, List.cons_append,
      List.append_assoc]

end Walks

/-- **Every walk ends**: it goes down only to a new place, which uses up arrows. -/
theorem exists_walks (d : Diagram) (shown : List Nat) (as : List Arrow) :
    ∃ o shown', d.Walks shown as o shown' := by
  match as with
  | [] => exact ⟨.done, shown, .done⟩
  | a :: as =>
    by_cases h : a.target ∈ shown
    · obtain ⟨rest, shown', next⟩ := exists_walks d shown as
      exact ⟨.back a rest, shown', .back h next⟩
    · -- the arrows that leave the new place were unshown, and nothing shown is forgotten
      have hdeeper := d.unshown_cons h
      obtain ⟨below, shown', deeper⟩ :=
        exists_walks d (a.target :: shown) (d.arrowsFrom a.target)
      have hnext : d.unshown shown' ≤ d.unshown shown :=
        unshown_le (List.Subset.trans (List.subset_cons_self _ _) deeper.subset)
      obtain ⟨rest, shown'', next⟩ := exists_walks d shown' as
      exact ⟨.down a below rest, shown'', .down h deeper next⟩
termination_by d.unshown shown + as.length
decreasing_by
  all_goals simp only [List.length_cons]; omega

theorem exists_plants (d : Diagram) (shown places : List Nat) :
    ∃ forest shown', d.Plants shown places forest shown' := by
  induction places generalizing shown with
  | nil => exact ⟨[], shown, .done⟩
  | cons place places ih =>
    by_cases h : place ∈ shown
    · obtain ⟨forest, shown', next⟩ := ih shown
      exact ⟨forest, shown', .pass h next⟩
    · obtain ⟨below, shown', deeper⟩ := d.exists_walks (place :: shown) (d.arrowsFrom place)
      obtain ⟨forest, shown'', next⟩ := ih shown'
      exact ⟨⟨place, below⟩ :: forest, shown'', .root h deeper next⟩

namespace Plants

variable {d : Diagram} {shown shown' places : List Nat} {forest : List RootedOutline}

theorem whole (h : d.Plants shown places forest shown') : ∀ t ∈ forest, t.Whole d := by
  induction h with
  | done => simp
  | pass _ _ ih => exact ih
  | root _ deeper _ ih => exact List.forall_mem_cons.mpr ⟨⟨deeper.row_eq, deeper.whole⟩, ih⟩

theorem roots_subset (h : d.Plants shown places forest shown') :
    ∀ t ∈ forest, t.root ∈ places := by
  induction h with
  | done => simp
  | pass _ _ ih => exact fun t ht => List.mem_cons_of_mem _ (ih t ht)
  | root _ _ _ ih =>
    exact List.forall_mem_cons.mpr
      ⟨List.mem_cons_self, fun t ht => List.mem_cons_of_mem _ (ih t ht)⟩

theorem shown_eq (h : d.Plants shown places forest shown') :
    shown' = (forest.flatMap RootedOutline.introduced).reverse ++ shown := by
  induction h with
  | done => rfl
  | pass _ _ ih => exact ih
  | root _ deeper _ ih =>
    rw [ih, deeper.shown_eq, List.flatMap_cons, RootedOutline.introduced]
    simp

theorem nodup (h : d.Plants shown places forest shown') (hn : shown.Nodup) : shown'.Nodup := by
  induction h with
  | done => exact hn
  | pass _ _ ih => exact ih hn
  | root new deeper _ ih => exact ih (deeper.nodup (List.nodup_cons.mpr ⟨new, hn⟩))

theorem nodup_introduced (h : d.Plants [] places forest shown') :
    (forest.flatMap RootedOutline.introduced).Nodup := by
  have hshown := h.nodup List.nodup_nil
  rw [h.shown_eq, List.append_nil] at hshown
  exact List.nodup_reverse.mp hshown

theorem subset (h : d.Plants shown places forest shown') : shown ⊆ shown' := by
  rw [h.shown_eq]
  exact List.subset_append_right _ _

/-- No place is forgotten. -/
theorem places_subset (h : d.Plants shown places forest shown') : places ⊆ shown' := by
  induction h with
  | done => exact List.nil_subset _
  | pass old next ih => exact List.cons_subset.mpr ⟨next.subset old, ih⟩
  | root _ deeper next ih =>
    exact List.cons_subset.mpr ⟨next.subset (deeper.subset List.mem_cons_self), ih⟩

theorem blocksFrom_eq (h : d.Plants shown places forest shown') :
    d.blocksFrom places shown = forest.map RootedOutline.block := by
  induction h with
  | done => rfl
  | pass old _ ih => rw [blocksFrom, if_pos old, ih]
  | root new deeper _ ih =>
    have hwalk := deeper.explore_eq [] []
    rw [List.append_nil] at hwalk
    rw [blocksFrom, if_neg new, hwalk]
    simp [explore, RootedOutline.block, ih]

end Plants

/-! ## What is shown -/

/-- Both ends of every arrow, and the initial place, are places of vertices. -/
structure WellPlaced (d : Diagram) : Prop where
  source : ∀ a ∈ d.arrows, a.source < d.nodeCount
  target : ∀ a ∈ d.arrows, a.target < d.nodeCount
  start : ∀ place, d.start = some place → place < d.nodeCount

theorem Records.wellPlaced {d : Diagram} {calls : List Call} (h : d.Records calls) :
    d.WellPlaced := by
  have hcount : d.nodeCount = (mentioned calls).length := by
    rw [nodeCount, h.depicts.vertices, List.length_map]
  have hends : ∀ a ∈ d.arrows, a.source < d.nodeCount ∧ a.target < d.nodeCount := by
    intro a ha
    rw [h.depicts.arrows] at ha
    obtain ⟨e, he, rfl⟩ := List.mem_map.mp ha
    obtain ⟨hs, ht⟩ := h.depicts.ends e he
    rw [hcount]
    exact ⟨List.idxOf_lt_length_of_mem hs, List.idxOf_lt_length_of_mem ht⟩
  refine ⟨fun a ha => (hends a ha).1, fun a ha => (hends a ha).2, fun place hp => ?_⟩
  rw [h.start] at hp
  obtain ⟨id, hid, rfl⟩ := Option.map_eq_some_iff.mp hp
  rw [hcount]
  exact List.idxOf_lt_length_of_mem (h.mem_mentioned hid)

/-- Elements that are collected by their keys are all there. -/
theorem perm_flatMap_filter {α : Type} (key : α → Nat) {keys : List Nat} (hn : keys.Nodup)
    {l : List α} (hl : ∀ a ∈ l, key a ∈ keys) :
    (keys.flatMap fun k => l.filter fun a => key a = k).Perm l := by
  induction keys generalizing l with
  | nil =>
    have hnil : l = [] := List.eq_nil_iff_forall_not_mem.mpr fun a ha => List.not_mem_nil (hl a ha)
    rw [hnil]
    exact .nil
  | cons k keys ih =>
    rw [List.nodup_cons] at hn
    -- the other keys do not collect what the first key takes
    have hothers : (keys.flatMap fun k' => l.filter fun a => key a = k') =
        keys.flatMap fun k' => (l.filter fun a => !decide (key a = k)).filter fun a =>
          key a = k' := by
      refine List.flatMap_congr fun k' hk' => ?_
      rw [List.filter_filter]
      refine List.filter_congr fun a _ => ?_
      by_cases ha : key a = k'
      · have hne : k' ≠ k := fun h => hn.1 (h ▸ hk')
        simp [ha, hne]
      · simp [ha]
    have hrest := ih hn.2 (l := l.filter fun a => !decide (key a = k)) fun a ha => by
      obtain ⟨ha, hne⟩ := List.mem_filter.mp ha
      exact (List.mem_cons.mp (hl a ha)).resolve_left (by simpa using hne)
    rw [List.flatMap_cons, hothers]
    exact (hrest.append_left _).trans (List.filter_append_perm _ l)

/-- The forest is how a depth-first walk shows the diagram, with all of it shown. -/
structure ShownAs (d : Diagram) (forest : List RootedOutline) : Prop where
  walk : ∃ shown, d.Plants [] d.rootCandidates forest shown
  text : d.tree = "\n".intercalate (forest.map fun t => unlines (t.lines d))
  /-- One entry for each arrow, and no other. -/
  arrows : (forest.flatMap fun t => t.outline.arrows).Perm d.arrows
  /-- Each place is introduced once, as a root or by an entry without a mark. -/
  places : (forest.flatMap RootedOutline.introduced).Perm (List.range d.nodeCount)
  whole : ∀ t ∈ forest, t.Whole d
  returning : (forest.flatMap fun t => t.outline.returning).length + d.nodeCount =
    d.edgeCount + forest.length

namespace WellPlaced

variable {d : Diagram} (hd : d.WellPlaced)
include hd

theorem mem_rootCandidates {place : Nat} : place ∈ d.rootCandidates ↔ place < d.nodeCount := by
  simp only [rootCandidates, List.mem_append, Option.mem_toList, List.mem_filter, List.mem_range]
  constructor
  · rintro ((hp | ⟨hp, -⟩) | hp)
    · exact hd.start place hp
    · exact hp
    · exact hp
  · exact Or.inr

section Forest

variable {forest : List RootedOutline} {shown : List Nat}
  (h : d.Plants [] d.rootCandidates forest shown)
include h

/-- The walk from the candidates comes to all places. -/
theorem mem_introduced {place : Nat} (hp : place < d.nodeCount) :
    place ∈ forest.flatMap RootedOutline.introduced := by
  have hmem := h.places_subset (hd.mem_rootCandidates.mpr hp)
  rw [h.shown_eq, List.append_nil] at hmem
  exact List.mem_reverse.mp hmem

/-- The entries of all trees are the arrows that leave what is introduced: all arrows. -/
theorem perm_forest_arrows : (forest.flatMap fun t => t.outline.arrows).Perm d.arrows := by
  have htrees : (forest.flatMap fun t => t.outline.arrows).Perm
      ((forest.flatMap RootedOutline.introduced).flatMap d.arrowsFrom) := by
    rw [List.flatMap_assoc]
    exact List.Perm.flatMap_left forest fun t ht => RootedOutline.perm_arrows (h.whole t ht)
  refine htrees.trans (perm_flatMap_filter Arrow.source h.nodup_introduced fun a ha => ?_)
  exact hd.mem_introduced h (hd.source a ha)

theorem perm_introduced :
    (forest.flatMap RootedOutline.introduced).Perm (List.range d.nodeCount) := by
  rw [List.perm_ext_iff_of_nodup h.nodup_introduced List.nodup_range]
  intro place
  rw [List.mem_range]
  refine ⟨fun hp => ?_, hd.mem_introduced h⟩
  obtain ⟨t, ht, hp⟩ := List.mem_flatMap.mp hp
  rw [RootedOutline.introduced, List.mem_cons] at hp
  rcases hp with rfl | hp
  · exact hd.mem_rootCandidates.mp (h.roots_subset t ht)
  · obtain ⟨a, ha, rfl⟩ := Outline.exists_arrow_of_introduced hp
    have hmem : a ∈ forest.flatMap fun t => t.outline.arrows := List.mem_flatMap.mpr ⟨t, ht, ha⟩
    exact hd.target a ((hd.perm_forest_arrows h).mem_iff.mp hmem)

/-- The forest of the walk is how the diagram is shown. -/
theorem shownAs : d.ShownAs forest where
  walk := ⟨shown, h⟩
  text := by
    rw [tree, blocks, h.blocksFrom_eq, List.map_map]
    simp only [Function.comp_def, RootedOutline.blockLines_block]
  arrows := hd.perm_forest_arrows h
  places := hd.perm_introduced h
  whole := h.whole
  returning := by
    -- an entry introduces a place or has a mark, and each root introduces one more
    have hentries : (forest.flatMap fun t => t.outline.arrows).length + forest.length =
        (forest.flatMap RootedOutline.introduced).length +
          (forest.flatMap fun t => t.outline.returning).length := by
      clear h
      induction forest with
      | nil => rfl
      | cons t forest ih =>
        simp only [List.flatMap_cons, List.length_append, List.length_cons, Outline.length_arrows,
          RootedOutline.introduced] at ih ⊢
        omega
    have harrows := (hd.perm_forest_arrows h).length_eq
    have hplaces := (hd.perm_introduced h).length_eq
    rw [List.length_range] at hplaces
    rw [edgeCount]
    omega

end Forest

end WellPlaced

/-- **The tree shows everything once.**  However a diagram was drawn, the depth-first walk
through it ends, and the text is that of the forest it makes.  There is one entry for each
arrow; each node is introduced once, as a root or by an entry without a mark, and below it
are all arrows that leave it, in the order in which they were drawn; and there are as many
entries with a mark as there are arrows and roots more than nodes. -/
theorem tree_shows_all (name : String) (calls : List Call) :
    ∃ forest, (replay name calls).ShownAs forest := by
  have hplaced := (records_replay name calls).wellPlaced
  obtain ⟨forest, shown, h⟩ := (replay name calls).exists_plants [] (replay name calls).rootCandidates
  exact ⟨forest, hplaced.shownAs h⟩

end Diagram

end Transducers
