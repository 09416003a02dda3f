import Mathlib.Data.List.Nodup
import Transducers.Mealy

/-!
# First occurrences

Facts about lists of which only the first occurrence of each element counts.

* `nodup_eraseDups`, `eraseDups_of_nodup`: nothing is left twice, and nothing else goes;
* `eraseDups_append_left`, `eraseDups_append_of_subset`, `eraseDups_filter_ne`: what can be
  left out before;
* `eraseDups_filter`, `eraseDups_map`: a selection, and other names for the elements;
* `eraseDups_append_declare`: more names are declared after the others;
* `keys_ofList`: the keys of a map that is written in turn;
* `idxOf_declare`, `modify_idxOf`: the place of a name, and changing what is there;
* `FirstWith`: the first element with a property, and where it is in longer lists.
-/

namespace Transducers

variable {α : Type} [BEq α] [LawfulBEq α]

theorem nodup_eraseDups (l : List α) : l.eraseDups.Nodup := by
  match l with
  | [] => exact List.nodup_nil
  | a :: l =>
    rw [List.eraseDups_cons, List.nodup_cons]
    refine ⟨by simp, ?_⟩
    have : (l.filter fun b => !b == a).length < l.length + 1 :=
      Nat.lt_succ_of_le (List.length_filter_le _ l)
    exact nodup_eraseDups _
termination_by l.length

theorem eraseDups_of_nodup {l : List α} (h : l.Nodup) : l.eraseDups = l := by
  induction l with
  | nil => rfl
  | cons a l ih =>
    rw [List.nodup_cons] at h
    have hf : (l.filter fun b => !b == a) = l := by
      rw [List.filter_eq_self]
      intro b hb
      have : b ≠ a := fun hba => h.1 (hba ▸ hb)
      simpa using this
    rw [List.eraseDups_cons, hf, ih h.2]

theorem eraseDups_append_left (l r : List α) :
    (l.eraseDups ++ r).eraseDups = (l ++ r).eraseDups := by
  have hr : r.removeAll l.eraseDups = r.removeAll l := by
    refine List.filter_congr fun b _ => ?_
    rw [Bool.eq_iff_iff]
    simp
  rw [List.eraseDups_append, List.eraseDups_append, eraseDups_of_nodup (nodup_eraseDups l), hr]

/-- What is there already is not a first occurrence. -/
theorem eraseDups_append_of_subset {l more : List α} (h : more ⊆ l) :
    (l ++ more).eraseDups = l.eraseDups := by
  have hnone : more.removeAll l = [] := by
    rw [List.removeAll, List.filter_eq_nil_iff]
    intro a ha
    simpa using h ha
  rw [List.eraseDups_append, hnone, List.eraseDups_nil, List.append_nil]

theorem eraseDups_concat_of_mem {l : List α} (h : l.Nodup) {a : α} (ha : a ∈ l) :
    (l ++ [a]).eraseDups = l := by
  rw [List.eraseDups_append, eraseDups_of_nodup h]
  simp [List.removeAll, ha]

theorem eraseDups_concat_of_notMem {l : List α} (h : l.Nodup) {a : α} (ha : a ∉ l) :
    (l ++ [a]).eraseDups = l ++ [a] := by
  apply eraseDups_of_nodup
  rw [List.nodup_append]
  refine ⟨h, List.nodup_singleton a, ?_⟩
  intro b hb c hc hbc
  rw [List.mem_singleton.mp hc] at hbc
  exact ha (hbc ▸ hb)

/-- After an element its later occurrences do not matter. -/
theorem eraseDups_filter_ne (l r : List α) (a : α) :
    (l ++ a :: r.filter fun b => !b == a).eraseDups = (l ++ a :: r).eraseDups := by
  have hcons : ∀ t : List α, (l ++ a :: t).eraseDups =
      ((l ++ [a]).eraseDups ++ (t.removeAll (l ++ [a])).eraseDups) := by
    intro t
    rw [← List.eraseDups_append, List.append_assoc, List.singleton_append]
  have hr : (r.filter fun b => !b == a).removeAll (l ++ [a]) = r.removeAll (l ++ [a]) := by
    simp only [List.removeAll, List.filter_filter]
    refine List.filter_congr fun b _ => ?_
    by_cases hb : b = a <;> simp [hb]
  rw [hcons (r.filter fun b => !b == a), hcons r, hr]

/-- To select elements does not change which occurrences are first. -/
theorem eraseDups_filter (l : List α) (p : α → Bool) :
    (l.filter p).eraseDups = l.eraseDups.filter p := by
  match l with
  | [] => rfl
  | a :: l =>
    have : (l.filter fun b => !b == a).length < l.length + 1 :=
      Nat.lt_succ_of_le (List.length_filter_le _ l)
    have hrest := eraseDups_filter (l.filter fun b => !b == a) p
    rw [List.eraseDups_cons]
    by_cases ha : p a = true
    · rw [List.filter_cons_of_pos ha, List.eraseDups_cons, List.filter_cons_of_pos ha, ← hrest,
        List.filter_filter, List.filter_filter]
      simp only [Bool.and_comm]
    · rw [List.filter_cons_of_neg ha, List.filter_cons_of_neg ha, ← hrest, List.filter_filter]
      congr 1
      refine List.filter_congr fun b _ => ?_
      by_cases hb : b = a
      · simp [hb, ha]
      · simp [hb]
termination_by l.length

/-- A map that keeps different elements apart keeps first occurrences. -/
theorem eraseDups_map {β : Type} [BEq β] [LawfulBEq β] {f : α → β} (hf : Function.Injective f)
    (l : List α) : (l.map f).eraseDups = l.eraseDups.map f := by
  match l with
  | [] => rfl
  | a :: l =>
    have hfilter : (l.map f).filter (fun b => !b == f a) = (l.filter fun b => !b == a).map f := by
      rw [List.filter_map]
      congr 1
      refine List.filter_congr fun b _ => ?_
      by_cases hb : b = a
      · simp [hb]
      · simp [hb, hf.ne hb]
    have : (l.filter fun b => !b == a).length < l.length + 1 :=
      Nat.lt_succ_of_le (List.length_filter_le _ l)
    rw [List.map_cons, List.eraseDups_cons, List.eraseDups_cons, List.map_cons, hfilter,
      eraseDups_map hf]
termination_by l.length

/-! ## Names that are declared in turn -/

theorem eraseDups_concat (names : List String) (name : String) :
    (names ++ [name]).eraseDups = declare name names.eraseDups := by
  rw [← eraseDups_append_left]
  unfold declare
  split
  · rename_i h
    exact eraseDups_concat_of_mem (nodup_eraseDups names) h
  · rename_i h
    exact eraseDups_concat_of_notMem (nodup_eraseDups names) h

theorem eraseDups_append_declare (names more : List String) :
    (names ++ more).eraseDups = more.foldl (fun ns n => declare n ns) names.eraseDups := by
  induction more generalizing names with
  | nil => simp
  | cons n more ih =>
    rw [List.append_cons, ih, eraseDups_concat]
    rfl

/-- A map has its keys in the order in which they were first written. -/
theorem keys_ofList {β : Type} (es : List (String × β)) :
    (OrderedMap.ofList es).keys = (es.map Prod.fst).eraseDups := by
  suffices hgen : ∀ m : OrderedMap String β, (es.foldl (fun m e => m.insert e.1 e.2) m).keys =
      (es.map Prod.fst).foldl (fun ns n => declare n ns) m.keys by
    have hes := eraseDups_append_declare [] (es.map Prod.fst)
    rw [List.nil_append] at hes
    rw [hes]
    exact hgen .empty
  induction es with
  | nil => exact fun _ => rfl
  | cons e es ih =>
    intro m
    rw [List.foldl_cons, ih, OrderedMap.keys_insert]
    rfl

/-- The place of a name does not change when another is declared. -/
theorem idxOf_declare {names : List String} {a : String} (h : a ∈ names) (name : String) :
    (declare name names).idxOf a = names.idxOf a := by
  unfold declare
  split
  · rfl
  · exact List.idxOf_append_of_mem h

theorem idxOf_foldl_declare {names : List String} {a : String} (h : a ∈ names)
    (more : List String) : (more.foldl (fun ns n => declare n ns) names).idxOf a =
      names.idxOf a := by
  induction more generalizing names with
  | nil => rfl
  | cons n more ih =>
    rw [List.foldl_cons, ih (mem_declare.mpr (Or.inl h)), idxOf_declare h]

/-- To change what stands for a name at its place is to change what the name stands for. -/
theorem modify_idxOf {β : Type} {names : List String} (hn : names.Nodup) {name : String}
    (h : name ∈ names) (f : String → β) (g : β → β) :
    (names.map f).modify (names.idxOf name) g =
      names.map fun a => if a = name then g (f a) else f a := by
  apply List.ext_getElem?
  intro i
  rw [List.getElem?_modify, List.getElem?_map, List.getElem?_map]
  cases ha : names[i]? with
  | none => rfl
  | some a =>
    have hplace : names.idxOf name = i ↔ a = name := by
      constructor
      · rintro rfl
        rw [List.getElem?_idxOf h, Option.some.injEq] at ha
        exact ha.symm
      · rintro rfl
        obtain ⟨hi, rfl⟩ := List.getElem?_eq_some_iff.mp ha
        exact hn.idxOf_getElem i hi
    simp [hplace]

/-! ## The first element with a property -/

section FirstWith

variable {β : Type} {P : β → Prop}

/-- `a` stands in the list, has the property, and nothing before it has. -/
def FirstWith (P : β → Prop) (l : List β) (a : β) : Prop :=
  ∃ before after, l = before ++ a :: after ∧ (∀ b ∈ before, ¬ P b) ∧ P a

theorem find?_eq_some_iff_firstWith {p : β → Bool} {l : List β} {a : β} :
    l.find? p = some a ↔ FirstWith (fun b => p b = true) l a := by
  rw [List.find?_eq_some_iff_append]
  constructor
  · rintro ⟨ha, before, after, rfl, hbefore⟩
    exact ⟨before, after, rfl, fun b hb => by simpa using hbefore b hb, ha⟩
  · rintro ⟨before, after, rfl, hbefore, ha⟩
    exact ⟨ha, before, after, rfl, fun b hb => by simpa using hbefore b hb⟩

theorem FirstWith.mem {l : List β} {a : β} (h : FirstWith P l a) : a ∈ l := by
  obtain ⟨before, after, rfl, -, -⟩ := h
  simp

theorem FirstWith.holds {l : List β} {a : β} (h : FirstWith P l a) : P a := by
  obtain ⟨-, -, -, -, ha⟩ := h
  exact ha

theorem firstWith_cons_iff {l : List β} {a b : β} :
    FirstWith P (b :: l) a ↔ b = a ∧ P b ∨ ¬ P b ∧ FirstWith P l a := by
  constructor
  · rintro ⟨before, after, hl, hbefore, ha⟩
    cases before with
    | nil =>
      cases hl
      exact Or.inl ⟨rfl, ha⟩
    | cons c before =>
      cases hl
      rw [List.forall_mem_cons] at hbefore
      exact Or.inr ⟨hbefore.1, before, after, rfl, hbefore.2, ha⟩
  · rintro (⟨rfl, hb⟩ | ⟨hb, before, after, rfl, hbefore, ha⟩)
    · exact ⟨[], l, rfl, by simp, hb⟩
    · exact ⟨b :: before, after, rfl, List.forall_mem_cons.mpr ⟨hb, hbefore⟩, ha⟩

end FirstWith

end Transducers
