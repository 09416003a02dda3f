import Mathlib.Data.Finset.Card
import Transducers.ToMoore

/-!
# Fresh ids

A new id is its name with the least number of apostrophes that no earlier id has.

* `primed_injective`: different numbers of apostrophes give different ids;
* `exists_primed_notMem`: no more apostrophes are needed than ids are taken;
* `leastPrimed_freshId`: `freshId` finds the least number;
* `suffixes_freshId_iff`: so does the loop that adds one apostrophe after another, and it ends.
-/

namespace Transducers

theorem length_primed (name : String) (n : Nat) : (primed name n).length = name.length + n := by
  simp [primed, String.length_append, String.length_ofList]

theorem primed_injective (name : String) : Function.Injective (primed name) := by
  intro i j h
  have hl : (primed name i).length = (primed name j).length := by rw [h]
  rw [length_primed, length_primed] at hl
  omega

@[simp] theorem primed_zero (name : String) : primed name 0 = name := by
  simp [primed]

/-- The id is the name with the least number of apostrophes that no taken id has. -/
def LeastPrimed (taken : List String) (name id : String) : Prop :=
  ∃ n, id = primed name n ∧ id ∉ taken ∧ ∀ j < n, primed name j ∈ taken

theorem LeastPrimed.notMem {taken : List String} {name id : String}
    (h : LeastPrimed taken name id) : id ∉ taken := by
  obtain ⟨n, -, hn, -⟩ := h
  exact hn

theorem LeastPrimed.eq_name {taken : List String} {name id : String}
    (h : LeastPrimed taken name id) (hn : name ∉ taken) : id = name := by
  obtain ⟨n, rfl, -, hlt⟩ := h
  cases n with
  | zero => exact primed_zero name
  | succ n => exact absurd (by simpa using hlt 0 (Nat.succ_pos n)) hn

/-- Among one more candidates than there are taken ids, one is new. -/
theorem exists_primed_notMem (taken : List String) (name : String) :
    ∃ n ≤ taken.length, primed name n ∉ taken := by
  by_contra hall
  push Not at hall
  have hsub : (Finset.range (taken.length + 1)).image (primed name) ⊆ taken.toFinset := by
    intro id hid
    obtain ⟨n, hn, rfl⟩ := Finset.mem_image.mp hid
    exact List.mem_toFinset.mpr (hall n (Nat.lt_succ_iff.mp (Finset.mem_range.mp hn)))
  have hcard := Finset.card_le_card hsub
  rw [Finset.card_image_of_injective _ (primed_injective name), Finset.card_range] at hcard
  have hle : taken.toFinset.card ≤ taken.length := List.toFinset_card_le taken
  omega

theorem leastPrimed_freshId (taken : OrderedMap String String) (name : String) :
    LeastPrimed taken.keys name (freshId taken name) := by
  have hmem : ∀ n, (!taken.contains (primed name n)) = true ↔ primed name n ∉ taken.keys := by
    intro n
    rw [Bool.not_eq_true', ← Bool.not_eq_true, OrderedMap.contains_iff]
  obtain ⟨n, hn, hnew⟩ := exists_primed_notMem taken.keys name
  rw [OrderedMap.length_keys] at hn
  unfold freshId
  cases hf : (List.range (taken.size + 1)).find? fun n => !taken.contains (primed name n) with
  | none =>
    have := List.find?_range_eq_none.mp hf n (by omega)
    rw [(hmem n).mpr hnew] at this
    cases this
  | some i =>
    obtain ⟨hi, -, hlt⟩ := List.find?_range_eq_some.mp hf
    refine ⟨i, rfl, (hmem i).mp hi, fun j hj => ?_⟩
    by_contra hj'
    have := hlt j hj
    rw [(hmem j).mpr hj'] at this
    cases this

/-! ## One apostrophe after another -/

/-- As long as an id is taken it gets one more apostrophe.  From the first id on this ends at the
last one, after so many rounds. -/
inductive Suffixes (taken : OrderedMap String String) : String → Nat → String → Prop
  | free {id : String} (h : taken.contains id = false) : Suffixes taken id 0 id
  | round {id last : String} {rounds : Nat} (h : taken.contains id = true)
      (rest : Suffixes taken (id.push '\x27') rounds last) : Suffixes taken id (rounds + 1) last

theorem primed_push (name : String) (n : Nat) :
    primed (name.push '\x27') n = primed name (n + 1) := by
  rw [← String.toList_inj]
  simp [primed, List.replicate_succ]

theorem suffixes_primed {taken : OrderedMap String String} {name : String} {n : Nat}
    (hfree : primed name n ∉ taken.keys) (htaken : ∀ j < n, primed name j ∈ taken.keys) :
    Suffixes taken name n (primed name n) := by
  induction n generalizing name with
  | zero =>
    rw [primed_zero] at hfree ⊢
    exact .free (by simpa [← OrderedMap.contains_iff] using hfree)
  | succ n ih =>
    have hname : name ∈ taken.keys := by simpa using htaken 0 (Nat.succ_pos n)
    refine .round (OrderedMap.contains_iff.mpr hname) ?_
    rw [← primed_push] at hfree ⊢
    refine ih hfree fun j hj => ?_
    rw [primed_push]
    exact htaken (j + 1) (Nat.succ_lt_succ hj)

theorem Suffixes.unique {taken : OrderedMap String String} {name id id' : String} {n n' : Nat}
    (h : Suffixes taken name n id) (h' : Suffixes taken name n' id') : n = n' ∧ id = id' := by
  induction h generalizing n' with
  | free hfree =>
    cases h' with
    | free => exact ⟨rfl, rfl⟩
    | round htaken => simp [hfree] at htaken
  | round htaken _ ih =>
    cases h' with
    | free hfree => simp [htaken] at hfree
    | round _ rest =>
      obtain ⟨rfl, rfl⟩ := ih rest
      exact ⟨rfl, rfl⟩

/-- **The loop ends** at the id that `freshId` finds, after no more rounds than ids are taken. -/
theorem suffixes_freshId_iff (taken : OrderedMap String String) (name : String) :
    ∃ rounds ≤ taken.size, ∀ n id,
      Suffixes taken name n id ↔ n = rounds ∧ id = freshId taken name := by
  obtain ⟨rounds, hid, hfree, htaken⟩ := leastPrimed_freshId taken name
  obtain ⟨i, hi, hnew⟩ := exists_primed_notMem taken.keys name
  rw [OrderedMap.length_keys] at hi
  have hle : rounds ≤ i := by
    by_contra hlt
    exact hnew (htaken i (by omega))
  have hends : Suffixes taken name rounds (freshId taken name) := by
    rw [hid] at hfree ⊢
    exact suffixes_primed hfree htaken
  refine ⟨rounds, by omega, fun n id => ⟨fun h => h.unique hends, ?_⟩⟩
  rintro ⟨rfl, rfl⟩
  exact hends

end Transducers
