import Transducers.Proofs.GrammarReading

/-!
# The parts of a text that is read

Whatever a reader takes off a text has the parts of some tree, so that a text which is no
document is refused.

* `spells_of_readChars`: a string is made of pieces;
* `spells_of_readNumeral`: a number is spelled with its digits;
* `exists_parts`: a list or an object is made of parts between commas;
* `exists_tree`: **a value has the parts of a tree**;
* `exists_isDocument`: whole texts.
-/

namespace Transducers.Json

/-! ## Strings -/

theorem SpellsPieces.append {ps qs : List Piece} {p q : List Char} (hp : SpellsPieces ps p)
    (hq : SpellsPieces qs q) : SpellsPieces (ps ++ qs) (p ++ q) := by
  induction hp with
  | nil => exact hq
  | cons first _ ih =>
    rw [List.cons_append, List.append_assoc]
    exact .cons first ih

theorem Piece.Spells.pieces {p : Piece} {s : List Char} (h : p.Spells s) : SpellsPieces [p] s := by
  rw [← List.append_nil s]
  exact .cons h .nil

section Chars

variable {s rest : List Char}

theorem spells_of_readHex4 {n : Nat} (h : Takes readHex4 s n rest) :
    ∃ q, (Piece.unit n).Spells ('\\' :: 'u' :: q) ∧ s = q ++ rest := by
  obtain ⟨_, h⟩ := h
  unfold readHex4 at h
  split at h
  · rename_i a b c d _ _
    split at h
    · rename_i first second third fourth
      cases h
      exact ⟨[a, b, c, d], .hex first second third fourth, rfl⟩
    · cases h
  · split at h <;> cases h

theorem spells_of_readTrail {n : Nat} (h : Takes readTrail s n rest) :
    ∃ q, (Piece.unit n).Spells q ∧ s = q ++ rest := by
  obtain ⟨_, h⟩ := h
  unfold readTrail at h
  split at h
  · obtain ⟨⟨k, t, ht⟩, hhex, h⟩ := bind_eq_ok_iff.mp h
    obtain ⟨q, hq, rfl⟩ := spells_of_readHex4 ⟨ht, hhex⟩
    simp only at h
    split at h
    · cases h
      exact ⟨_, hq, rfl⟩
    · cases h
  · cases h
  · cases h
  · cases h

/-- An escape is one piece, or a pair of units. -/
theorem spells_of_readEscape {c : Char} (h : Takes readEscape s c rest) :
    ∃ ps q, SpellsPieces ps ('\\' :: q) ∧ s = q ++ rest := by
  obtain ⟨_, h⟩ := h
  unfold readEscape at h
  split at h
  · cases h
  · rename_i letter _ _
    split at h
    · rename_i e he
      cases h
      exact ⟨_, [letter], (Piece.Spells.short (escaped?_eq_some_iff.mp he)).pieces, rfl⟩
    · split at h
      · rename_i hu
        subst hu
        obtain ⟨⟨n, t, ht⟩, hhex, h⟩ := bind_eq_ok_iff.mp h
        obtain ⟨q, hq, rfl⟩ := spells_of_readHex4 ⟨ht, hhex⟩
        simp only at h
        split at h
        · obtain ⟨⟨k, u, hu⟩, htrail, h⟩ := bind_eq_ok_iff.mp h
          obtain ⟨q', hq', rfl⟩ := spells_of_readTrail ⟨hu, htrail⟩
          obtain ⟨-, rfl⟩ : _ ∧ u = rest := by
            simpa [pure, Except.pure] using h
          exact ⟨_, _, hq.pieces.append hq'.pieces, by simp⟩
        · split at h
          · cases h
          · cases h
            exact ⟨_, _, hq.pieces, rfl⟩
      · cases h

theorem spells_of_readChars {cs : List Char} (h : Takes readChars s cs rest) :
    ∃ ps p, SpellsPieces ps p ∧ s = p ++ '"' :: rest := by
  -- the text gets shorter with each piece
  induction hlength : s.length using Nat.strongRecOn generalizing s cs with
  | _ n ih =>
    obtain ⟨hrest, h⟩ := h
    cases s with
    | nil =>
      rw [readChars] at h
      cases h
    | cons c r =>
      rw [readChars] at h
      split at h
      · rename_i hquote
        subst hquote
        cases h
        exact ⟨[], [], .nil, rfl⟩
      · rename_i hquote
        split at h
        · rename_i hslash
          subst hslash
          obtain ⟨⟨e, t, ht⟩, hescape, h⟩ := bind_eq_ok_iff.mp h
          obtain ⟨⟨ds, u, hu⟩, hothers, h⟩ := bind_eq_ok_iff.mp h
          cases h
          obtain ⟨ps, q, hq, rfl⟩ := spells_of_readEscape ⟨ht, hescape⟩
          obtain ⟨qs, p, hp, rfl⟩ := ih t.length (by simp at hlength; omega) ⟨hu, hothers⟩ rfl
          exact ⟨_, _, hq.append hp, by simp⟩
        · rename_i hslash
          split at h
          · cases h
          · rename_i hcontrol
            obtain ⟨⟨ds, u, hu⟩, hothers, h⟩ := bind_eq_ok_iff.mp h
            cases h
            obtain ⟨qs, p, hp, rfl⟩ := ih r.length (by simp at hlength; omega) ⟨hu, hothers⟩ rfl
            exact ⟨_, _, .cons (.plain hquote hslash (Nat.not_lt.mp hcontrol)) hp, rfl⟩

theorem spells_of_readString {name : String} (h : Takes readString s name rest) :
    ∃ ps p, SpellsPieces ps p ∧ s = '"' :: (p ++ '"' :: rest) := by
  obtain ⟨_, h⟩ := h
  unfold readString at h
  split at h
  · cases h
  · split at h
    · rename_i hquote
      subst hquote
      obtain ⟨⟨cs, t, ht⟩, hcs, h⟩ := bind_eq_ok_iff.mp h
      cases h
      obtain ⟨ps, p, hp, rfl⟩ := spells_of_readChars ⟨ht, hcs⟩
      exact ⟨ps, p, hp, rfl⟩
    · cases h

end Chars

/-! ## Numbers -/

section Numbers

variable {s rest : List Char}

theorem spells_of_readDigits {ds : List Char} (h : Takes readDigits s ds rest) :
    Digits ds ∧ s = ds ++ rest := by
  obtain ⟨_, h⟩ := h
  unfold readDigits at h
  split at h
  · cases h
  · rename_i c r _
    split at h
    · rename_i hdigit
      cases h
      refine ⟨⟨List.cons_ne_nil _ _, List.forall_mem_cons.mpr ⟨hdigit, ?_⟩⟩, ?_⟩
      · exact fun d hd => List.mem_takeWhile_imp hd
      · rw [List.cons_append, List.takeWhile_append_dropWhile]
    · cases h

theorem spells_of_readWhole {ds : List Char} (h : Takes readWhole s ds rest) :
    Digits ds ∧ (ds = ['0'] ∨ ds.head? ≠ some '0') ∧ s = ds ++ rest := by
  obtain ⟨_, h⟩ := h
  obtain ⟨⟨es, t, ht⟩, hdigits, h⟩ := bind_eq_ok_iff.mp h
  obtain ⟨hes, rfl⟩ := spells_of_readDigits ⟨ht, hdigits⟩
  simp only at h
  split at h
  · cases h
  · rename_i hzero
    cases h
    refine ⟨hes, ?_, rfl⟩
    by_cases hfirst : ds.head? = some '0'
    · obtain ⟨r, rfl⟩ := List.head?_eq_some_iff.mp hfirst
      cases r with
      | nil => exact Or.inl rfl
      | cons d r => exact absurd rfl (hzero d r)
    · exact Or.inr hfirst

theorem spells_of_readFraction {ds : List Char} {ht : rest.length ≤ s.length}
    (h : readFraction s = .ok (ds, ⟨rest, ht⟩)) :
    (∀ c ∈ ds, c.isDigit = true) ∧ s = fractionChars ds ++ rest := by
  unfold readFraction at h
  split at h
  · obtain ⟨⟨es, t, ht⟩, hdigits, h⟩ := bind_eq_ok_iff.mp h
    cases h
    obtain ⟨⟨hne, hes⟩, rfl⟩ := spells_of_readDigits ⟨ht, hdigits⟩
    refine ⟨hes, ?_⟩
    cases ds with
    | nil => exact absurd rfl hne
    | cons d ds => rfl
  · cases h
    exact ⟨nofun, rfl⟩

theorem spells_of_readSign {negative : Bool} {ht : rest.length ≤ s.length}
    (h : readSign s = (negative, ⟨rest, ht⟩)) :
    ∃ sign, (if negative then sign = ['-'] else sign = [] ∨ sign = ['+']) ∧ s = sign ++ rest := by
  unfold readSign at h
  split at h
  · cases h
    exact ⟨['+'], Or.inr rfl, rfl⟩
  · cases h
    exact ⟨['-'], rfl, rfl⟩
  · cases h
    exact ⟨[], Or.inl rfl, rfl⟩

theorem spells_of_readExponent {exponent : Option (Bool × List Char)}
    {ht : rest.length ≤ s.length} (h : readExponent s = .ok (exponent, ⟨rest, ht⟩)) :
    ∃ p, SpellsExponent exponent p ∧ s = p ++ rest := by
  unfold readExponent at h
  split at h
  · cases h
    exact ⟨[], .none, rfl⟩
  · rename_i c r
    split at h
    · rename_i hletter
      cases hsign : readSign r with
      | mk negative tail =>
        obtain ⟨t, hr⟩ := tail
        rw [hsign] at h
        obtain ⟨⟨ds, u, hu⟩, hdigits, h⟩ := bind_eq_ok_iff.mp h
        cases h
        obtain ⟨sign, hspelled, rfl⟩ := spells_of_readSign hsign
        obtain ⟨hds, rfl⟩ := spells_of_readDigits ⟨hu, hdigits⟩
        exact ⟨_, .some hletter hspelled hds, by simp⟩
    · cases h
      exact ⟨[], .none, rfl⟩

theorem spells_of_readMinus {negative : Bool} {ht : rest.length ≤ s.length}
    (h : readMinus s = (negative, ⟨rest, ht⟩)) :
    s = (if negative then ['-'] else []) ++ rest := by
  unfold readMinus at h
  split at h
  · cases h
    rfl
  · cases h
    rfl

theorem spells_of_readNumeral {n : Numeral} (h : Takes readNumeral s n rest) :
    ∃ p, n.Spells p ∧ s = p ++ rest := by
  obtain ⟨hlt, h⟩ := h
  cases hminus : readMinus s with
  | mk negative tail =>
    obtain ⟨r, hr⟩ := tail
    rw [readNumeral, hminus] at h
    obtain ⟨⟨whole, t, ht⟩, hwhole, h⟩ := bind_eq_ok_iff.mp h
    obtain ⟨⟨fraction, u, hu⟩, hfraction, h⟩ := bind_eq_ok_iff.mp h
    obtain ⟨⟨exponent, v, hv⟩, hexponent, h⟩ := bind_eq_ok_iff.mp h
    cases h
    obtain ⟨hdigits, hzero, rfl⟩ := spells_of_readWhole ⟨ht, hwhole⟩
    obtain ⟨hpoint, rfl⟩ := spells_of_readFraction hfraction
    obtain ⟨p, hp, rfl⟩ := spells_of_readExponent hexponent
    refine ⟨_, .intro hdigits hzero hpoint hp, ?_⟩
    rw [spells_of_readMinus hminus]
    simp

end Numbers

/-! ## Fronts of values -/

theorem Blanks.append {gap gap' : List Char} (h : Blanks gap) (h' : Blanks gap') :
    Blanks (gap ++ gap') := by
  intro c hc
  rcases List.mem_append.mp hc with hc | hc
  · exact h c hc
  · exact h' c hc

theorem exists_gap {s r : List Char} {hr : r.length ≤ s.length} (h : skipBlanks s = ⟨r, hr⟩) :
    ∃ gap, Blanks gap ∧ s = gap ++ r := by
  cases h
  exact ⟨s.takeWhile isBlank, fun _ hc => List.mem_takeWhile_imp hc,
    List.takeWhile_append_dropWhile.symm⟩

theorem eq_of_readWord {word s rest : List Char} {ht : rest.length ≤ s.length}
    (h : readWord word s = .ok ⟨rest, ht⟩) : s = word ++ rest := by
  induction word generalizing s with
  | nil =>
    unfold readWord at h
    cases h
    rfl
  | cons w word ih =>
    cases s with
    | nil => cases h
    | cons c r =>
      rw [readWord] at h
      split at h
      · rename_i hc
        subst hc
        obtain ⟨⟨t, ht⟩, hword, h⟩ := bind_eq_ok_iff.mp h
        cases h
        rw [ih hword, List.cons_append]
      · cases h

/-- The text begins with the head: with all of a value, or with an opening bracket. -/
def Front (head : Head) (s : List Char) : Prop :=
  match head with
  | .list => s = ['[']
  | .object => s = ['\x7b']
  | .null => (Tree.null).Spells s
  | .bool b => (Tree.bool b).Spells s
  | .number _ => ∃ n, (Tree.number n).Spells s
  | .text _ => ∃ ps, (Tree.text ps).Spells s

theorem front_of_readHead {s rest : List Char} {head : Head} (h : Takes readHead s head rest) :
    ∃ gap p, Blanks gap ∧ Front head p ∧ s = gap ++ (p ++ rest) := by
  obtain ⟨hlt, h⟩ := h
  unfold readHead at h
  split at h
  · cases h
  · rename_i c r hle hskip
    obtain ⟨gap, hgap, rfl⟩ := exists_gap hskip
    refine ⟨gap, ?_⟩
    simp only at h
    split_ifs at h with hlist hobject hnull htrue hfalse htext hnumber
    · cases h
      exact ⟨['['], hgap, rfl, by simp [hlist]⟩
    · cases h
      exact ⟨['\x7b'], hgap, rfl, by simp [hobject]⟩
    · obtain ⟨⟨t, ht⟩, hword, h⟩ := bind_eq_ok_iff.mp h
      cases h
      exact ⟨_, hgap, .null, by simp [hnull, eq_of_readWord hword]⟩
    · obtain ⟨⟨t, ht⟩, hword, h⟩ := bind_eq_ok_iff.mp h
      cases h
      exact ⟨_, hgap, .bool true, by simp [htrue, eq_of_readWord hword, boolChars]⟩
    · obtain ⟨⟨t, ht⟩, hword, h⟩ := bind_eq_ok_iff.mp h
      cases h
      exact ⟨_, hgap, .bool false, by simp [hfalse, eq_of_readWord hword, boolChars]⟩
    · obtain ⟨⟨cs, t, ht⟩, hcs, h⟩ := bind_eq_ok_iff.mp h
      cases h
      obtain ⟨ps, p, hp, rfl⟩ := spells_of_readChars ⟨ht, hcs⟩
      exact ⟨_, hgap, ⟨ps, .text hp⟩, by simp [htext]⟩
    · obtain ⟨⟨x, t, ht⟩, hread, h⟩ := bind_eq_ok_iff.mp h
      cases h
      obtain ⟨⟨n, u, hu⟩, hnumeral, hread⟩ := bind_eq_ok_iff.mp hread
      simp only at hread
      split at hread
      · cases hread
        obtain ⟨p, hp, heq⟩ := spells_of_readNumeral ⟨hu, hnumeral⟩
        exact ⟨p, hgap, ⟨n, .number hp⟩, congrArg (gap ++ ·) heq⟩
      · cases hread

/-! ## Items and members -/

theorem gap_of_next_close {closing : Char} {first : Bool} {s rest : List Char}
    (h : ∃ hlt, next closing first s = .ok (.close ⟨rest, hlt⟩)) :
    ∃ gap, Blanks gap ∧ s = gap ++ closing :: rest := by
  obtain ⟨_, h⟩ := h
  unfold next at h
  split at h
  · cases h
  · rename_i c r _ hskip
    obtain ⟨gap, hgap, rfl⟩ := exists_gap hskip
    refine ⟨gap, hgap, ?_⟩
    simp only at h
    split_ifs at h with hclosing
    · cases h
      rw [hclosing]
    · cases h
    · split at h
      · cases h
      · split at h <;> cases h

theorem gap_of_next_first {closing : Char} {s t : List Char}
    (h : ∃ hle, next closing true s = .ok (.item ⟨t, hle⟩)) : ∃ gap, Blanks gap ∧ s = gap ++ t := by
  obtain ⟨_, h⟩ := h
  unfold next at h
  split at h
  · cases h
  · rename_i c r _ hskip
    obtain ⟨gap, hgap, rfl⟩ := exists_gap hskip
    refine ⟨gap, hgap, ?_⟩
    simp only at h
    split_ifs at h
    · cases h
    · cases h
      rfl

theorem gap_of_next_comma {closing : Char} {s t : List Char}
    (h : ∃ hle, next closing false s = .ok (.item ⟨t, hle⟩)) :
    ∃ gap gap', Blanks gap ∧ Blanks gap' ∧ s = gap ++ ',' :: (gap' ++ t) := by
  obtain ⟨_, h⟩ := h
  unfold next at h
  split at h
  · cases h
  · rename_i c r _ hskip
    obtain ⟨gap, hgap, rfl⟩ := exists_gap hskip
    refine ⟨gap, ?_⟩
    simp only [Bool.false_eq_true, if_false] at h
    split_ifs at h with hclosing hcomma
    · cases h
    · split at h
      · cases h
      · rename_i hskip'
        obtain ⟨gap', hgap', rfl⟩ := exists_gap hskip'
        split at h
        · cases h
        · cases h
          exact ⟨gap', hgap, hgap', by rw [hcomma]⟩

section Parts

variable {α β : Type} {closing : Char} {taken : List Char → α → List Char → Prop}
  {text : β → List Char} {Good : β → Prop}
  (htaken : ∀ {s x rest}, taken s x rest →
    ∃ gap b, Blanks gap ∧ Good b ∧ s = gap ++ (text b ++ rest))
include htaken

theorem exists_parts_after {s rest : List Char} {xs : List α}
    (h : Items closing taken false s xs rest) :
    ∃ gap, ∃ parts : List (Part β), Blanks gap ∧ (∀ p ∈ parts, p.Blank ∧ Good p.content) ∧
      s = gap ++ (parts.flatMap (fun p => ',' :: p.chars text) ++ closing :: rest) := by
  generalize hfirst : false = first at h
  induction h with
  | close closed =>
    obtain ⟨gap, hgap, rfl⟩ := gap_of_next_close closed
    exact ⟨gap, [], hgap, nofun, rfl⟩
  | item begun here _ ih =>
    subst hfirst
    obtain ⟨gap, gap', hgap, hgap', rfl⟩ := gap_of_next_comma begun
    obtain ⟨gap'', b, hgap'', hb, rfl⟩ := htaken here
    obtain ⟨after, parts, hafter, hparts, rfl⟩ := ih rfl
    refine ⟨gap, ⟨gap' ++ gap'', b, after⟩ :: parts, hgap, ?_, by simp [Part.chars]⟩
    exact List.forall_mem_cons.mpr ⟨⟨⟨hgap'.append hgap'', hafter⟩, hb⟩, hparts⟩

/-- **A list or an object** is empty, or made of parts between commas. -/
theorem exists_parts {s rest : List Char} {xs : List α} (h : Items closing taken true s xs rest) :
    (∃ gap, Blanks gap ∧ s = gap ++ closing :: rest) ∨
      ∃ parts : List (Part β), parts ≠ [] ∧ (∀ p ∈ parts, p.Blank ∧ Good p.content) ∧
        s = commaSeparated (parts.map (Part.chars text)) ++ closing :: rest := by
  cases h with
  | close closed => exact Or.inl (gap_of_next_close closed)
  | item begun here others =>
    obtain ⟨gap, hgap, rfl⟩ := gap_of_next_first begun
    obtain ⟨gap', b, hgap', hb, rfl⟩ := htaken here
    obtain ⟨after, parts, hafter, hparts, rfl⟩ := exists_parts_after htaken others
    refine Or.inr ⟨⟨gap ++ gap', b, after⟩ :: parts, List.cons_ne_nil _ _, ?_, ?_⟩
    · exact List.forall_mem_cons.mpr ⟨⟨⟨hgap.append hgap', hafter⟩, hb⟩, hparts⟩
    · simp [commaSeparated_cons, Part.chars, List.flatMap_map]

end Parts

/-! ## Values -/

theorem gap_of_readColon {s rest : List Char} (h : Takes readColon s () rest) :
    ∃ gap, Blanks gap ∧ s = gap ++ ':' :: rest := by
  obtain ⟨_, h⟩ := h
  unfold readColon at h
  split at h
  · cases h
  · rename_i c r _ hskip
    obtain ⟨gap, hgap, rfl⟩ := exists_gap hskip
    refine ⟨gap, hgap, ?_⟩
    split at h
    · rename_i hcolon
      cases h
      rw [hcolon]
    · cases h

/-- **A value has the parts of a tree.** -/
theorem exists_tree {room : Nat} {s rest : List Char} {v : Value}
    (h : Takes (readValue room) s v rest) :
    ∃ gap, ∃ tree : Tree, ∃ p, Blanks gap ∧ tree.Spells p ∧ s = gap ++ (p ++ rest) := by
  induction room using Nat.strongRecOn generalizing s rest v with
  | _ room ih =>
    rcases takes_readValue_cases h with ⟨hhead, hlist, hobject⟩ |
      ⟨n, items, r, rfl, rfl, hhead, hitems⟩ | ⟨n, es, r, rfl, rfl, hhead, hes⟩
    · obtain ⟨gap, p, hgap, hfront, rfl⟩ := front_of_readHead hhead
      refine ⟨gap, ?_⟩
      cases v with
      | null => exact ⟨_, p, hgap, hfront, rfl⟩
      | bool b => exact ⟨_, p, hgap, hfront, rfl⟩
      | number n =>
        obtain ⟨n, hfront⟩ := hfront
        exact ⟨_, p, hgap, hfront, rfl⟩
      | text t =>
        obtain ⟨ps, hfront⟩ := hfront
        exact ⟨_, p, hgap, hfront, rfl⟩
      | list items => exact absurd rfl (hlist items)
      | object es => exact absurd rfl (hobject es)
    · obtain ⟨gap, p, hgap, rfl, rfl⟩ := front_of_readHead hhead
      have htaken {s : List Char} {x : Value} {rest : List Char}
          (h : Takes (readValue n) s x rest) :
          ∃ gap, ∃ i : Item, Blanks gap ∧ i.tree.Spells i.text ∧
            s = gap ++ (i.text ++ rest) := by
        obtain ⟨gap, tree, p, hgap, hp, rfl⟩ := ih n (Nat.lt_succ_self n) h
        exact ⟨gap, ⟨tree, p⟩, hgap, hp, rfl⟩
      rcases exists_parts htaken hitems with ⟨gap', hgap', rfl⟩ | ⟨parts, hsome, hparts, rfl⟩
      · exact ⟨gap, _, _, hgap, .noItems hgap', by simp⟩
      · exact ⟨gap, _, _, hgap, .items hsome (fun p hp => (hparts p hp).1)
          fun p hp => (hparts p hp).2, by simp⟩
    · obtain ⟨gap, p, hgap, rfl, rfl⟩ := front_of_readHead hhead
      have htaken {s : List Char} {e : String × Value} {rest : List Char}
          (h : TakesMember (readValue n) s e rest) :
          ∃ gap, ∃ m : Member, Blanks gap ∧
            (SpellsPieces m.pieces m.name ∧ (Blanks m.middle ∧ Blanks m.behind) ∧
              m.tree.Spells m.text) ∧ s = gap ++ (m.chars ++ rest) := by
        obtain ⟨t, u, hname, hcolon, hvalue⟩ := h
        obtain ⟨ps, name, hps, rfl⟩ := spells_of_readString hname
        obtain ⟨middle, hmiddle, rfl⟩ := gap_of_readColon hcolon
        obtain ⟨behind, tree, p, hbehind, hp, rfl⟩ := ih n (Nat.lt_succ_self n) hvalue
        exact ⟨[], ⟨ps, name, middle, behind, tree, p⟩, blanks_nil,
          ⟨hps, ⟨hmiddle, hbehind⟩, hp⟩, by simp [Member.chars]⟩
      rcases exists_parts htaken hes with ⟨gap', hgap', rfl⟩ | ⟨parts, hsome, hparts, rfl⟩
      · exact ⟨gap, _, _, hgap, .noMembers hgap', by simp⟩
      · exact ⟨gap, _, _, hgap, .members hsome (fun p hp => (hparts p hp).1)
          (fun p hp => (hparts p hp).2.1) (fun p hp => (hparts p hp).2.2.1)
          fun p hp => (hparts p hp).2.2.2, by simp⟩

/-- **Whole texts.**  Only a document is read. -/
theorem exists_isDocument {source : String} {room : Nat} {v : Value}
    (h : readAll (readValue room) source = .ok v) : ∃ tree, IsDocument source tree := by
  obtain ⟨rest, hread, hblank⟩ := readAll_eq_ok_iff.mp h
  obtain ⟨gap, tree, p, hgap, hp, hsource⟩ := exists_tree hread
  exact ⟨tree, gap, p, rest, hgap, List.dropWhile_eq_nil_iff.mp hblank, hp, hsource⟩

/-- What is printed on one line is a document. -/
theorem exists_isDocument_compact {room : Nat} {v : Value} (h : v.Fits room) :
    ∃ tree, IsDocument v.compact tree ∧ tree.Within room ∧ tree.value? = some v := by
  have hread : readAll (readValue room) v.compact = .ok v :=
    readAll_of_reads (reads_readValue h) (by simpa [Value.compact] using spelled_compactChars h)
  obtain ⟨tree, hdoc⟩ := exists_isDocument hread
  exact ⟨tree, hdoc, (readAll_readValue_iff hdoc).mp hread⟩

end Transducers.Json
