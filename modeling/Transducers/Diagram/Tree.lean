import Transducers.Diagram.Dot

/-!
# Diagrams as trees on a terminal

The arrows are followed from a root, and every arrow is shown once: below the entry
that shows its source for the first time.  An arrow to a node that was shown before
has a mark and nothing below it.  Roots are the initial node, then the nodes that no
other node points to, then all that is left; each starts a block of its own.

* `Diagram.explore`: the entries below the arrows that wait, and the nodes shown;
* `Diagram.blocks`: all roots with the entries below them;
* `Diagram.tree`: their text.
-/

namespace Transducers

/-- An arrow that waits to be shown, with its place in the tree. -/
structure Branch where
  /-- For each entry above, the outermost first: whether it was the last one there. -/
  above : List Bool
  /-- Whether it is the last one of its source. -/
  last : Bool
  arrow : Arrow
  deriving DecidableEq, Repr

/-- An arrow as it is shown. -/
structure TreeEntry where
  branch : Branch
  /-- Whether the target was shown before. -/
  returns : Bool
  deriving DecidableEq, Repr

/-- A root and the entries below it. -/
structure TreeBlock where
  root : Nat
  entries : List TreeEntry
  deriving DecidableEq, Repr

/-- Arrows of one source as branches: the last of them closes the row. -/
def branches (above : List Bool) : List Arrow → List Branch
  | [] => []
  | [a] => [⟨above, true, a⟩]
  | a :: b :: rest => ⟨above, false, a⟩ :: branches above (b :: rest)

theorem length_branches (above : List Bool) (as : List Arrow) :
    (branches above as).length = as.length := by
  induction as with
  | nil => rfl
  | cons a as ih =>
    cases as with
    | nil => rfl
    | cons b as => simp only [branches, List.length_cons] at ih ⊢; rw [ih]

namespace Diagram

/-- The number of arrows that leave a place not shown yet. -/
def unshown (d : Diagram) (shown : List Nat) : Nat :=
  (d.arrows.filter fun a => a.source ∉ shown).length

/-- Showing a new place uses up the arrows that leave it. -/
theorem unshown_cons (d : Diagram) {place : Nat} {shown : List Nat} (h : place ∉ shown) :
    d.unshown (place :: shown) + (d.arrowsFrom place).length = d.unshown shown := by
  unfold unshown arrowsFrom
  simp only [List.mem_cons]
  induction d.arrows with
  | nil => rfl
  | cons a as ih =>
    by_cases hs : a.source = place
    · simp only [List.filter_cons, hs, true_or, not_true_eq_false, decide_false,
        Bool.false_eq_true, ↓reduceIte, decide_true, List.length_cons, h, not_false_eq_true]
      omega
    · by_cases hm : a.source ∈ shown
      · simp only [List.filter_cons, hs, hm, or_true, not_true_eq_false,
          decide_false, Bool.false_eq_true, ↓reduceIte]
        exact ih
      · simp only [List.filter_cons, hs, hm, or_false, not_false_eq_true,
          decide_true, ↓reduceIte, decide_false, Bool.false_eq_true, List.length_cons]
        omega

/-- Show the arrows that wait, one after another; below an arrow to a new place come
the arrows that leave it.  Gives the entries and all places shown. -/
def explore (d : Diagram) : List Branch → List Nat → List TreeEntry × List Nat
  | [], shown => ([], shown)
  | b :: waiting, shown =>
    if b.arrow.target ∈ shown then
      let (entries, shown) := d.explore waiting shown
      (⟨b, true⟩ :: entries, shown)
    else
      let below := branches (b.above ++ [b.last]) (d.arrowsFrom b.arrow.target)
      let (entries, shown) := d.explore (below ++ waiting) (b.arrow.target :: shown)
      (⟨b, false⟩ :: entries, shown)
termination_by waiting shown => d.unshown shown + waiting.length
decreasing_by
  · simp only [List.length_cons]; omega
  · rename_i h
    have := d.unshown_cons h
    simp only [List.length_append, length_branches, List.length_cons]
    omega

/-- Whether an arrow from another place ends here. -/
def hasIncoming (d : Diagram) (place : Nat) : Bool :=
  d.arrows.any fun a => a.target == place && a.source != place

/-- The places that may become roots, in order: the initial one, those that no other
place points to, and all. -/
def rootCandidates (d : Diagram) : List Nat :=
  let places := List.range d.vertices.length
  d.start.toList ++ places.filter (fun place => !d.hasIncoming place) ++ places

/-- A block for each candidate that was not shown when its turn comes. -/
def blocksFrom (d : Diagram) : List Nat → List Nat → List TreeBlock
  | [], _ => []
  | place :: candidates, shown =>
    if place ∈ shown then d.blocksFrom candidates shown
    else
      let (entries, shown) := d.explore (branches [] (d.arrowsFrom place)) (place :: shown)
      ⟨place, entries⟩ :: d.blocksFrom candidates shown

def blocks (d : Diagram) : List TreeBlock := d.blocksFrom d.rootCandidates []

/-! ## Text -/

/-- The strokes before an entry, one for each entry above. -/
def strokes (above : List Bool) : String :=
  .join (above.map fun last => if last then "    " else "│   ")

def entryLine (d : Diagram) (e : TreeEntry) : String :=
  strokes e.branch.above ++ (if e.branch.last then "└─ " else "├─ ") ++ e.branch.arrow.label ++
    " → " ++ d.labelAt e.branch.arrow.target ++ if e.returns then " ↩" else ""

def blockLines (d : Diagram) (b : TreeBlock) : List String :=
  d.labelAt b.root :: b.entries.map d.entryLine

/-- The blocks with an empty line between each two. -/
def tree (d : Diagram) : String :=
  "\n".intercalate (d.blocks.map fun b => unlines (d.blockLines b))

end Diagram

end Transducers
