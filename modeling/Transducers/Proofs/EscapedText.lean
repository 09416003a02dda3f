import Mathlib.Data.List.Basic
import Transducers.Diagram.Dot

/-!
# Escaped texts

What the texts for diagram languages have in common: names are escaped character by
character, and lines are put one under another.

* `flatMap_append_inj`, `append_cons_inj`: an escaped text ends where it stops;
* `replaced`: one character replaced by a text, and texts put together;
* `unlines_append`: lines under lines;
* `unlines_inj`, `count_unlines`: lines without line breaks can be told from their text;
* `unlines_flatMap_inj`: items of several lines, each of which ends by itself.
-/

namespace Transducers

/-! ## Texts that are escaped character by character -/

section Escaped

variable {α : Type} {stop : α}

/-- An escaped text ends where what follows is no code of a character, if no character is
escaped to a text that begins another's. -/
theorem flatMap_append_inj {β : Type} {f : α → List β} {s t : List α} {r u : List β}
    (hcode : ∀ {a b : α} {r u : List β}, f a ++ r = f b ++ u → a = b ∧ r = u)
    (hs : ∀ a ∈ s, ∀ x, f a ++ x ≠ u) (ht : ∀ b ∈ t, ∀ x, f b ++ x ≠ r)
    (h : s.flatMap f ++ r = t.flatMap f ++ u) : s = t ∧ r = u := by
  induction s generalizing t with
  | nil =>
    cases t with
    | nil => exact ⟨rfl, h⟩
    | cons b t =>
      rw [List.flatMap_cons, List.append_assoc] at h
      exact absurd h.symm (ht b List.mem_cons_self _)
  | cons a s ih =>
    cases t with
    | nil =>
      rw [List.flatMap_cons, List.append_assoc] at h
      exact absurd h (hs a List.mem_cons_self _)
    | cons b t =>
      rw [List.flatMap_cons, List.flatMap_cons, List.append_assoc, List.append_assoc] at h
      obtain ⟨rfl, hrest⟩ := hcode h
      obtain ⟨rfl, hr⟩ := ih (fun c hc => hs c (List.mem_cons_of_mem _ hc))
        (fun c hc => ht c (List.mem_cons_of_mem _ hc)) hrest
      exact ⟨rfl, hr⟩

/-- A text in which nothing is escaped ends at the first character that it does not have. -/
theorem append_cons_inj {s t r u : List α} (hs : stop ∉ s) (ht : stop ∉ t)
    (h : s ++ stop :: r = t ++ stop :: u) : s = t ∧ r = u := by
  have hs' : ∀ a ∈ s, ∀ x, [a] ++ x ≠ stop :: u := by
    rintro a ha x hstop
    exact hs ((List.cons.inj hstop).1 ▸ ha)
  have ht' : ∀ b ∈ t, ∀ x, [b] ++ x ≠ stop :: r := by
    rintro b hb x hstop
    exact ht ((List.cons.inj hstop).1 ▸ hb)
  rw [← List.flatMap_singleton' s, ← List.flatMap_singleton' t] at h
  obtain ⟨hst, hrest⟩ := flatMap_append_inj (fun hab => List.cons.inj hab) hs' ht' h
  exact ⟨hst, (List.cons.inj hrest).2⟩

end Escaped

/-- Put a text in the place of a character. -/
def replaced (c : Char) (text : List Char) (s : List Char) : List Char :=
  s.flatMap fun d => if d = c then text else [d]

theorem replaced_append (c : Char) (text s t : List Char) :
    replaced c text (s ++ t) = replaced c text s ++ replaced c text t :=
  List.flatMap_append

/-! ## Lines -/

theorem toList_unlines (ls : List String) :
    (unlines ls).toList = ls.flatMap fun l => l.toList ++ ['\n'] := by
  simp [unlines, String.toList_join, List.flatMap_map]

theorem unlines_append (ls ms : List String) : unlines (ls ++ ms) = unlines ls ++ unlines ms := by
  rw [← String.toList_inj, String.toList_append, toList_unlines, toList_unlines, toList_unlines,
    List.flatMap_append]

/-- Items can be told from their lines, if each can be told from all that begins with its
lines, and what follows the last does not begin like one. -/
theorem unlines_flatMap_inj {α : Type} {f : α → List String} {s t : List α} {ls ms : List String}
    (hcode : ∀ {a b : α} {r u : String}, unlines (f a) ++ r = unlines (f b) ++ u → a = b ∧ r = u)
    (hls : ∀ a r, unlines (f a) ++ r ≠ unlines ls) (hms : ∀ a r, unlines (f a) ++ r ≠ unlines ms)
    (h : unlines (s.flatMap f ++ ls) = unlines (t.flatMap f ++ ms)) :
    s = t ∧ unlines ls = unlines ms := by
  have htext (a : α) (r : List Char) : (unlines (f a) ++ .ofList r).toList =
      (unlines (f a)).toList ++ r := by rw [String.toList_append, String.toList_ofList]
  have hitems (l : List α) : (unlines (l.flatMap f)).toList =
      l.flatMap fun a => (unlines (f a)).toList := by
    simp only [toList_unlines, List.flatMap_assoc]
  replace h := congrArg String.toList h
  rw [unlines_append, unlines_append, String.toList_append, String.toList_append, hitems,
    hitems] at h
  obtain ⟨hst, hrest⟩ := flatMap_append_inj
    (fun {a b r u} hab => by
      rw [← htext, ← htext, String.toList_inj] at hab
      obtain ⟨rfl, hru⟩ := hcode hab
      exact ⟨rfl, String.ofList_injective hru⟩)
    (fun a _ x hx => hms a (.ofList x) (by rw [← String.toList_inj, htext, hx]))
    (fun a _ x hx => hls a (.ofList x) (by rw [← String.toList_inj, htext, hx])) h
  exact ⟨hst, String.toList_inj.mp hrest⟩

/-- Lines without line breaks can be told from their text. -/
theorem unlines_inj {ls ms : List String} (hl : ∀ l ∈ ls, '\n' ∉ l.toList)
    (hm : ∀ l ∈ ms, '\n' ∉ l.toList) (h : unlines ls = unlines ms) : ls = ms := by
  replace h := congrArg String.toList h
  rw [toList_unlines, toList_unlines] at h
  induction ls generalizing ms with
  | nil =>
    cases ms with
    | nil => rfl
    | cons m ms => simp at h
  | cons l ls ih =>
    cases ms with
    | nil => simp at h
    | cons m ms =>
      simp only [List.flatMap_cons, List.append_assoc, List.singleton_append] at h
      obtain ⟨hline, hrest⟩ :=
        append_cons_inj (hl l List.mem_cons_self) (hm m List.mem_cons_self) h
      rw [String.toList_inj.mp hline, ih (fun a ha => hl a (List.mem_cons_of_mem _ ha))
        (fun a ha => hm a (List.mem_cons_of_mem _ ha)) hrest]

theorem count_unlines {ls : List String} (hl : ∀ l ∈ ls, '\n' ∉ l.toList) :
    (unlines ls).toList.count '\n' = ls.length := by
  rw [toList_unlines]
  induction ls with
  | nil => rfl
  | cons l ls ih =>
    have hnone : l.toList.count '\n' = 0 := List.count_eq_zero.mpr (hl l List.mem_cons_self)
    rw [List.flatMap_cons, List.count_append, List.count_append, hnone,
      ih fun a ha => hl a (List.mem_cons_of_mem _ ha), List.length_cons]
    simp [Nat.add_comm]

end Transducers
