import Mathlib.Data.List.TakeWhile
import Transducers.Proofs.JsonDocuments
import Transducers.Proofs.JsonGrammar

/-!
# The grammar is read

A text that has the parts of a tree is read as the value of the tree, if it has one and there is
room for it, and is refused otherwise.  What may follow a value matters only after a number,
where another digit would belong to it.

* `takes_readChars_iff`: the pieces of a string are read as what they stand for;
* `takes_readNumeral`: a number is read with its digits;
* `Finds`: what a reader finds in a text, whatever follows;
* `items_parts_iff`, `finds_member`: items and members between commas;
* `takes_readValue_iff`: **the value of a tree is found**;
* `readAll_readValue_iff`: whole texts.
-/

namespace Transducers.Json

/-! ## Strings -/

section Chars

variable {s t cs : List Char}

theorem readChars_plain_iff {c : Char} (hquote : c ≠ '"') (hslash : c ≠ '\\')
    (hplain : 32 ≤ c.toNat) :
    Takes readChars (c :: s) cs t ↔ ∃ ds, Takes readChars s ds t ∧ cs = c :: ds := by
  constructor
  · rintro ⟨ht, h⟩
    rw [readChars, if_neg hquote, if_neg hslash, if_neg (Nat.not_lt.mpr hplain)] at h
    obtain ⟨⟨ds, u, hu⟩, hds, h⟩ := bind_eq_ok_iff.mp h
    cases h
    exact ⟨ds, ⟨hu, hds⟩, rfl⟩
  · rintro ⟨ds, h, rfl⟩
    exact readChars_plain hquote hslash (Nat.not_lt.mpr hplain) h

theorem readChars_escape_iff :
    Takes readChars ('\\' :: s) cs t ↔
      ∃ e u ds, Takes readEscape s e u ∧ Takes readChars u ds t ∧ cs = e :: ds := by
  constructor
  · rintro ⟨ht, h⟩
    rw [readChars, if_neg (by decide), if_pos rfl] at h
    obtain ⟨⟨e, u, hu⟩, he, h⟩ := bind_eq_ok_iff.mp h
    obtain ⟨⟨ds, v, hv⟩, hds, h⟩ := bind_eq_ok_iff.mp h
    cases h
    exact ⟨e, u, ds, ⟨hu, he⟩, ⟨hv, hds⟩, rfl⟩
  · rintro ⟨e, u, ds, he, hds, rfl⟩
    exact readChars_escape he hds

theorem escaped?_eq_some_iff {letter c : Char} :
    escaped? letter = some c ↔ (letter, c) ∈ shortEscapes := by
  unfold escaped? shortEscapes
  split <;> simp_all [eq_comm]

/-- A character, escaped by a letter or not. -/
theorem takes_char_iff {c : Char} {p : List Char} (h : (Piece.char c).Spells p) :
    Takes readChars (p ++ s) cs t ↔ ∃ ds, Takes readChars s ds t ∧ cs = c :: ds := by
  cases h with
  | plain quote backslash control => exact readChars_plain_iff quote backslash control
  | @short letter _ h =>
    have hletter := readEscape_short (escaped?_eq_some_iff.mpr h) s
    rw [List.cons_append, List.singleton_append, readChars_escape_iff]
    constructor
    · rintro ⟨e, u, ds, he, hds, rfl⟩
      obtain ⟨rfl, rfl⟩ := he.unique hletter
      exact ⟨ds, hds, rfl⟩
    · rintro ⟨ds, hds, rfl⟩
      exact ⟨c, s, ds, hletter, hds, rfl⟩

/-- The number of a unit is read. -/
theorem readHex4_of_spells {n : Nat} {p : List Char} (h : (Piece.unit n).Spells p) :
    ∃ q, p = '\\' :: 'u' :: q ∧ ∀ rest, Takes readHex4 (q ++ rest) n rest := by
  cases h with
  | @hex a b c d _ _ _ _ first second third fourth =>
    refine ⟨[a, b, c, d], rfl, fun rest => ⟨by simp; omega, ?_⟩⟩
    simp only [List.cons_append, List.nil_append, readHex4, first, second, third, fourth]

/-- A unit that stands for a character, or begins a pair. -/
theorem takes_readEscape_iff {n : Nat} {q : List Char} {x : Char}
    (h : ∀ rest, Takes readHex4 (q ++ rest) n rest) :
    Takes readEscape ('u' :: (q ++ s)) x t ↔
      if isLeadSurrogate n then ∃ k, Takes readTrail s k t ∧ x = pairedChar n k
      else isTrailSurrogate n = false ∧ x = .ofNat n ∧ t = s := by
  obtain ⟨hs, hhex⟩ := h s
  have hu : escaped? 'u' = none := by decide
  constructor
  · rintro ⟨ht, h⟩
    simp only [readEscape, hu, if_true, hhex, bind, Except.bind] at h
    cases hlead : isLeadSurrogate n with
    | true =>
      simp only [hlead, if_true] at h ⊢
      cases htrail : readTrail s with
      | error e =>
        rw [htrail] at h
        cases h
      | ok result =>
        obtain ⟨k, u, hu⟩ := result
        simp only [htrail, pure, Except.pure, Except.ok.injEq, Prod.mk.injEq,
          Subtype.mk.injEq] at h
        obtain ⟨hx, rfl⟩ := h
        exact ⟨k, ⟨hu, htrail⟩, hx.symm⟩
    | false =>
      simp only [hlead, Bool.false_eq_true, if_false] at h ⊢
      cases htrail : isTrailSurrogate n with
      | true =>
        rw [htrail] at h
        cases h
      | false =>
        rw [htrail] at h
        cases h
        exact ⟨rfl, rfl, rfl⟩
  · intro h
    cases hlead : isLeadSurrogate n with
    | true =>
      simp only [hlead, if_true] at h
      obtain ⟨k, ⟨ht, htrail⟩, hx⟩ := h
      refine ⟨length_lt_cons_of_lt _ (length_lt_trans hs ht), ?_⟩
      rw [hx, pairedChar]
      simp only [readEscape, hu, if_true, hhex, bind, Except.bind, hlead, htrail, pure,
        Except.pure]
    | false =>
      simp only [hlead, Bool.false_eq_true, if_false] at h
      obtain ⟨htrail, rfl, rfl⟩ := h
      refine ⟨length_lt_cons_of_lt _ hs, ?_⟩
      simp only [readEscape, hu, if_true, hhex, bind, Except.bind, hlead, htrail]
      rfl

theorem takes_readTrail_iff {n k : Nat} {p : List Char} (h : (Piece.unit n).Spells p) :
    Takes readTrail (p ++ s) k t ↔ isTrailSurrogate n = true ∧ k = n ∧ t = s := by
  obtain ⟨q, rfl, hread⟩ := readHex4_of_spells h
  obtain ⟨hs, hhex⟩ := hread s
  rw [List.cons_append, List.cons_append]
  constructor
  · rintro ⟨ht, h⟩
    simp only [readTrail, hhex, bind, Except.bind] at h
    cases htrail : isTrailSurrogate n with
    | true =>
      rw [htrail] at h
      cases h
      exact ⟨rfl, rfl, rfl⟩
    | false =>
      rw [htrail] at h
      cases h
  · rintro ⟨htrail, rfl, rfl⟩
    refine ⟨length_lt_cons_of_lt _ (length_lt_cons_of_lt _ hs), ?_⟩
    simp only [readTrail, hhex, bind, Except.bind, htrail]
    rfl

/-- A unit alone stands for a character, unless it belongs to a pair. -/
theorem takes_single_iff {n : Nat} {p : List Char} (h : (Piece.unit n).Spells p)
    (hlead : isLeadSurrogate n = false) :
    Takes readChars (p ++ s) cs t ↔
      isTrailSurrogate n = false ∧ ∃ ds, Takes readChars s ds t ∧ cs = .ofNat n :: ds := by
  obtain ⟨q, rfl, hread⟩ := readHex4_of_spells h
  rw [List.cons_append, List.cons_append, readChars_escape_iff]
  simp only [takes_readEscape_iff hread, hlead, Bool.false_eq_true, if_false]
  constructor
  · rintro ⟨e, u, ds, ⟨htrail, rfl, rfl⟩, hds, hcs⟩
    exact ⟨htrail, ds, hds, hcs⟩
  · rintro ⟨htrail, ds, hds, hcs⟩
    exact ⟨_, _, ds, ⟨htrail, rfl, rfl⟩, hds, hcs⟩

/-- The first unit of a pair needs the second. -/
theorem takes_lead_iff {n : Nat} {p : List Char} (h : (Piece.unit n).Spells p)
    (hlead : isLeadSurrogate n = true) :
    Takes readChars (p ++ s) cs t ↔
      ∃ k u ds, Takes readTrail s k u ∧ Takes readChars u ds t ∧ cs = pairedChar n k :: ds := by
  obtain ⟨q, rfl, hread⟩ := readHex4_of_spells h
  rw [List.cons_append, List.cons_append, readChars_escape_iff]
  simp only [takes_readEscape_iff hread, hlead, if_true]
  constructor
  · rintro ⟨e, u, ds, ⟨k, htrail, he⟩, hds, hcs⟩
    exact ⟨k, u, ds, htrail, hds, he ▸ hcs⟩
  · rintro ⟨k, u, ds, htrail, hds, hcs⟩
    exact ⟨_, u, ds, ⟨k, htrail, rfl⟩, hds, hcs⟩

/-- Where no unit comes there is no second half. -/
theorem not_takes_readTrail (h : ∀ r, s ≠ '\\' :: 'u' :: r) (k : Nat) :
    ¬ Takes readTrail s k t := by
  rintro ⟨ht, hread⟩
  unfold readTrail at hread
  split at hread
  · exact h _ rfl
  · cases hread
  · cases hread
  · cases hread

/-- Only a unit begins like one. -/
theorem ne_unit_of_pieces {ps : List Piece} {p : List Char} (h : SpellsPieces ps p)
    (hunit : ∀ k qs, ps ≠ .unit k :: qs) (rest r : List Char) :
    p ++ '"' :: rest ≠ '\\' :: 'u' :: r := by
  cases h with
  | nil => simp
  | @cons piece qs _ _ first _ =>
    cases first with
    | plain _ backslash _ => simp [backslash]
    | @short letter c h =>
      have hletter : letter ≠ 'u' := by
        rintro rfl
        rw [← escaped?_eq_some_iff, show escaped? 'u' = none by decide] at h
        cases h
      simp [hletter]
    | hex => exact absurd rfl (hunit _ _)

end Chars

/-- **The pieces of a string** are read as what they stand for, up to the quote. -/
theorem takes_readChars_iff {ps : List Piece} {p rest cs t : List Char} (h : SpellsPieces ps p) :
    Takes readChars (p ++ '"' :: rest) cs t ↔ decode ps = some cs ∧ t = rest := by
  induction ps using decode.induct generalizing p cs with
  | case1 =>
    cases h
    constructor
    · intro h
      obtain ⟨rfl, rfl⟩ := h.unique (readChars_quote rest)
      exact ⟨rfl, rfl⟩
    · rintro ⟨⟨⟩, rfl⟩
      exact readChars_quote _
  | case2 c ps ih =>
    cases h with
    | cons first others =>
      rw [List.append_assoc, takes_char_iff first, decode]
      simp only [ih others, Option.map_eq_some_iff]
      constructor
      · rintro ⟨ds, ⟨hds, rfl⟩, rfl⟩
        exact ⟨⟨ds, hds, rfl⟩, rfl⟩
      · rintro ⟨⟨ds, hds, rfl⟩, rfl⟩
        exact ⟨ds, ⟨hds, rfl⟩, rfl⟩
  | case3 n hlead k qs htrail ih =>
    cases h with
    | cons first others =>
      cases others with
      | cons second others =>
        rw [List.append_assoc, takes_lead_iff first hlead, List.append_assoc,
          decode_pair hlead htrail]
        simp only [takes_readTrail_iff second, htrail, true_and, Option.map_eq_some_iff]
        constructor
        · rintro ⟨_, _, ds, ⟨rfl, rfl⟩, hds, hcs⟩
          obtain ⟨hds, ht⟩ := (ih others).mp hds
          exact ⟨⟨ds, hds, hcs.symm⟩, ht⟩
        · rintro ⟨⟨ds, hds, hcs⟩, ht⟩
          exact ⟨k, _, ds, ⟨rfl, rfl⟩, (ih others).mpr ⟨hds, ht⟩, hcs.symm⟩
  | case4 n hlead k qs htrail =>
    cases h with
    | cons first others =>
      cases others with
      | cons second others =>
        have hdecode : decode (.unit n :: .unit k :: qs) = none := by
          refine decode_lead hlead fun _ _ h => ?_
          cases h
          simpa using htrail
        rw [List.append_assoc, takes_lead_iff first hlead, List.append_assoc, hdecode]
        simp [takes_readTrail_iff second, htrail]
  | case5 n ps hlead hunit =>
    cases h with
    | cons first others =>
      have hnone (k : Nat) (u : List Char) := not_takes_readTrail (t := u)
        (ne_unit_of_pieces others (fun k qs h => hunit k qs h) rest) k
      rw [List.append_assoc, takes_lead_iff first hlead,
        decode_lead hlead fun k qs h => absurd h (hunit k qs)]
      simp [hnone]
  | case6 n ps hlead htrail =>
    cases h with
    | cons first others =>
      have hlead : isLeadSurrogate n = false := by simpa using hlead
      rw [List.append_assoc, takes_single_iff first hlead, decode_single hlead]
      simp [htrail]
  | case7 n ps hlead htrail ih =>
    cases h with
    | cons first others =>
      have hlead : isLeadSurrogate n = false := by simpa using hlead
      have htrail : isTrailSurrogate n = false := by simpa using htrail
      rw [List.append_assoc, takes_single_iff first hlead, decode_single hlead]
      simp only [htrail, Bool.false_eq_true, if_false, ih others, Option.map_eq_some_iff]
      constructor
      · rintro ⟨-, ds, ⟨hds, ht⟩, hcs⟩
        exact ⟨⟨ds, hds, hcs.symm⟩, ht⟩
      · rintro ⟨⟨ds, hds, hcs⟩, ht⟩
        exact ⟨trivial, ds, ⟨hds, ht⟩, hcs.symm⟩

/-! ## Numbers -/

/-- What comes does not belong to a number before it. -/
def Stops (rest : List Char) : Prop :=
  ∀ c ∈ rest.head?, c.isDigit = false ∧ c ≠ '.' ∧ c ≠ 'e' ∧ c ≠ 'E'

theorem stops_nil : Stops [] := nofun

theorem stops_cons {c : Char} (h : isBlank c = true ∨ c = ',' ∨ c = ']' ∨ c = '\x7d')
    (rest : List Char) : Stops (c :: rest) := by
  intro d hd
  cases hd
  have hblank : isBlank c = true → c = ' ' ∨ c = '\t' ∨ c = '\n' ∨ c = '\r' := by
    simp [isBlank, or_assoc]
  rcases h with h | rfl | rfl | rfl
  · rcases hblank h with rfl | rfl | rfl | rfl <;> decide
  · decide
  · decide
  · decide

theorem Stops.gap {gap rest : List Char} (hgap : Blanks gap) (h : Stops rest) :
    Stops (gap ++ rest) := by
  cases gap with
  | nil => exact h
  | cons c gap => exact stops_cons (Or.inl (hgap c List.mem_cons_self)) _

theorem takes_readDigits {ds rest : List Char} (h : Digits ds)
    (hrest : ∀ c ∈ rest.head?, c.isDigit = false) : Takes readDigits (ds ++ rest) ds rest := by
  obtain ⟨hne, hdigits⟩ := h
  cases ds with
  | nil => exact absurd rfl hne
  | cons c ds =>
    rw [List.forall_mem_cons] at hdigits
    have hfirst : (ds ++ rest).takeWhile Char.isDigit = ds ∧
        (ds ++ rest).dropWhile Char.isDigit = rest := by
      rw [List.takeWhile_append_of_pos hdigits.2, List.dropWhile_append_of_pos hdigits.2]
      cases rest with
      | nil => simp
      | cons d rest => simp [hrest d rfl]
    refine ⟨by simp only [List.length_append, List.length_cons]; omega, ?_⟩
    simp only [List.cons_append, readDigits, if_pos hdigits.1, hfirst]

theorem takes_readWhole {ds rest : List Char} (h : Digits ds)
    (hzero : ds = ['0'] ∨ ds.head? ≠ some '0') (hrest : ∀ c ∈ rest.head?, c.isDigit = false) :
    Takes readWhole (ds ++ rest) ds rest := by
  obtain ⟨hlt, hdigits⟩ := takes_readDigits h hrest
  refine ⟨hlt, ?_⟩
  rw [readWhole, hdigits]
  simp only [bind, Except.bind]
  split
  · rcases hzero with hzero | hzero
    · cases hzero
    · exact absurd rfl hzero
  · rfl

theorem readFraction_eq {ds rest : List Char} (h : ∀ c ∈ ds, c.isDigit = true)
    (hrest : ∀ c ∈ rest.head?, c.isDigit = false ∧ c ≠ '.') :
    ∃ hlt, readFraction (fractionChars ds ++ rest) = .ok (ds, ⟨rest, hlt⟩) := by
  cases ds with
  | nil =>
    refine ⟨Nat.le_refl _, ?_⟩
    change readFraction rest = _
    unfold readFraction
    split
    · exact absurd rfl (hrest '.' rfl).2
    · rfl
  | cons d ds =>
    obtain ⟨hlt, hdigits⟩ := takes_readDigits ⟨List.cons_ne_nil d ds, h⟩ fun c hc => (hrest c hc).1
    refine ⟨Nat.le_of_lt (length_lt_cons_of_lt _ hlt), ?_⟩
    change readFraction ('.' :: (d :: ds ++ rest)) = _
    simp only [readFraction, hdigits, bind, Except.bind]
    rfl

theorem readSign_eq {negative : Bool} {sign rest : List Char}
    (h : if negative then sign = ['-'] else sign = [] ∨ sign = ['+'])
    (hrest : ∀ c ∈ rest.head?, c ≠ '+' ∧ c ≠ '-') :
    ∃ hle, readSign (sign ++ rest) = (negative, ⟨rest, hle⟩) := by
  cases negative with
  | true =>
    rw [if_pos rfl] at h
    subst h
    exact ⟨by simp, rfl⟩
  | false =>
    rw [if_neg Bool.false_ne_true] at h
    rcases h with rfl | rfl
    · rw [List.nil_append]
      refine ⟨Nat.le_refl _, ?_⟩
      unfold readSign
      split
      · exact absurd rfl (hrest '+' rfl).1
      · exact absurd rfl (hrest '-' rfl).2
      · rfl
    · exact ⟨by simp, rfl⟩

theorem readExponent_eq {exponent : Option (Bool × List Char)} {s rest : List Char}
    (h : SpellsExponent exponent s)
    (hrest : ∀ c ∈ rest.head?, c.isDigit = false ∧ c ≠ 'e' ∧ c ≠ 'E') :
    ∃ hlt, readExponent (s ++ rest) = .ok (exponent, ⟨rest, hlt⟩) := by
  cases h with
  | none =>
    rw [List.nil_append]
    cases rest with
    | nil => exact ⟨Nat.le_refl _, rfl⟩
    | cons c rest =>
      refine ⟨Nat.le_refl _, ?_⟩
      have hletter : ¬ (c = 'e' ∨ c = 'E') := not_or.mpr (hrest c rfl).2
      rw [readExponent, if_neg hletter]
  | @some letter negative sign digits letter_eq sign_eq digits_ok =>
    obtain ⟨hlt, hdigits⟩ := takes_readDigits digits_ok fun c hc => (hrest c hc).1
    have hnosign : ∀ c ∈ (digits ++ rest).head?, c ≠ '+' ∧ c ≠ '-' := by
      cases digits with
      | nil => exact absurd rfl digits_ok.1
      | cons d ds =>
        rintro c ⟨⟩
        have hd := digits_ok.2 d List.mem_cons_self
        constructor <;> (rintro rfl; cases hd)
    obtain ⟨hle, hsign⟩ := readSign_eq sign_eq hnosign
    rw [List.cons_append, List.append_assoc]
    refine ⟨Nat.le_of_lt (length_lt_cons_of_lt _ (Nat.lt_of_lt_of_le hlt hle)), ?_⟩
    rw [readExponent, if_pos letter_eq, hsign]
    simp only [hdigits, bind, Except.bind]
    rfl

theorem readMinus_eq {negative : Bool} {rest : List Char} (hrest : ∀ c ∈ rest.head?, c ≠ '-') :
    ∃ hle, readMinus ((if negative then ['-'] else []) ++ rest) = (negative, ⟨rest, hle⟩) := by
  cases negative with
  | true => exact ⟨by simp, rfl⟩
  | false =>
    change ∃ hle, readMinus rest = (false, ⟨rest, hle⟩)
    refine ⟨Nat.le_refl _, ?_⟩
    unfold readMinus
    split
    · exact absurd rfl (hrest '-' rfl)
    · rfl

theorem SpellsExponent.head {exponent : Option (Bool × List Char)} {s : List Char}
    (h : SpellsExponent exponent s) {rest : List Char} (hrest : Stops rest) :
    ∀ c ∈ (s ++ rest).head?, c.isDigit = false ∧ c ≠ '.' := by
  cases h with
  | none => exact fun c hc => ⟨(hrest c hc).1, (hrest c hc).2.1⟩
  | some letter_eq _ _ =>
    rintro c ⟨⟩
    rcases letter_eq with rfl | rfl <;> decide

/-- **A number** is read with its digits. -/
theorem takes_readNumeral {n : Numeral} {s rest : List Char} (h : n.Spells s)
    (hrest : Stops rest) : Takes readNumeral (s ++ rest) n rest := by
  cases h with
  | @intro exponent whole zero fraction exponent_ok =>
    obtain ⟨hle, hexponent⟩ := readExponent_eq exponent_ok fun c hc =>
      ⟨(hrest c hc).1, (hrest c hc).2.2⟩
    have hhead := exponent_ok.head hrest
    obtain ⟨hle', hfraction⟩ := readFraction_eq fraction hhead
    have hpoint : ∀ c ∈ (fractionChars n.fraction ++ (exponent ++ rest)).head?,
        c.isDigit = false := by
      cases n.fraction with
      | nil => exact fun c hc => (hhead c hc).1
      | cons d ds =>
        rintro c ⟨⟩
        decide
    obtain ⟨hlt, hwhole⟩ := takes_readWhole whole zero hpoint
    have hminus : ∀ c ∈ (n.whole ++ (fractionChars n.fraction ++ (exponent ++ rest))).head?,
        c ≠ '-' := by
      obtain ⟨hne, hdigits⟩ := whole
      cases hn : n.whole with
      | nil => exact absurd hn hne
      | cons d ds =>
        rintro c ⟨⟩ rfl
        have hd := hdigits '-' (by rw [hn]; exact List.mem_cons_self)
        cases hd
    obtain ⟨hle'', hsign⟩ := @readMinus_eq n.negative _ hminus
    rw [List.append_assoc, List.append_assoc, List.append_assoc]
    refine ⟨by omega, ?_⟩
    rw [readNumeral, hsign]
    simp only [hwhole, hfraction, hexponent, bind, Except.bind]
    rfl

/-- A number that is not too great is read as the number that is meant. -/
theorem takes_readNumber_iff {n : Numeral} {s rest t : List Char} {x : Number} (h : n.Spells s)
    (hrest : Stops rest) : Takes readNumber (s ++ rest) x t ↔ n.value? = some x ∧ t = rest := by
  obtain ⟨hlt, hread⟩ := takes_readNumeral h hrest
  constructor
  · rintro ⟨ht, h⟩
    simp only [readNumber, hread, bind, Except.bind] at h
    cases hvalue : n.value? with
    | none =>
      rw [hvalue] at h
      cases h
    | some y =>
      rw [hvalue] at h
      cases h
      exact ⟨rfl, rfl⟩
  · rintro ⟨hvalue, rfl⟩
    refine ⟨hlt, ?_⟩
    simp only [readNumber, hread, bind, Except.bind, hvalue]
    rfl

/-! ## Fronts of values -/

/-- Only digits and the minus begin a number. -/
theorem ne_of_number {c d : Char} (hc : c = '-' ∨ c.isDigit = true)
    (hd : d ≠ '-' ∧ d.isDigit = false) : c ≠ d := by
  rintro rfl
  rcases hc with hc | hc
  · exact hd.1 hc
  · rw [hd.2] at hc
    cases hc

theorem isBlank_number {c : Char} (hc : c = '-' ∨ c.isDigit = true) : isBlank c = false := by
  have hne (d : Char) (hd : d ≠ '-' ∧ d.isDigit = false) : c ≠ d := ne_of_number hc hd
  simp [isBlank, hne ' ' (by decide), hne '\t' (by decide), hne '\n' (by decide),
    hne '\r' (by decide)]

theorem Numeral.Spells.head {n : Numeral} {s : List Char} (h : n.Spells s) :
    ∃ c r, s = c :: r ∧ (c = '-' ∨ c.isDigit = true) := by
  cases h with
  | @intro exponent whole _ _ _ =>
    cases hnegative : n.negative with
    | true => exact ⟨'-', _, rfl, Or.inl rfl⟩
    | false =>
      obtain ⟨hne, hdigits⟩ := whole
      cases hn : n.whole with
      | nil => exact absurd hn hne
      | cons d ds => exact ⟨d, _, rfl, Or.inr (hdigits d (by rw [hn]; exact List.mem_cons_self))⟩

section Head

variable {gap : List Char} (hgap : Blanks gap) {s t : List Char}
include hgap

theorem takes_readHead_text_iff {h : Head} :
    Takes readHead (gap ++ '"' :: s) h t ↔
      ∃ cs, Takes readChars s cs t ∧ h = .text (.ofList cs) := by
  constructor
  · rintro ⟨ht, hread⟩
    rw [readHead, skipBlanks_gap hgap (by decide)] at hread
    obtain ⟨⟨cs, u, hu⟩, hcs, hread⟩ := bind_eq_ok_iff.mp hread
    cases hread
    exact ⟨cs, ⟨hu, hcs⟩, rfl⟩
  · rintro ⟨cs, ⟨ht, hcs⟩, rfl⟩
    refine ⟨by simp only [List.length_append, List.length_cons]; omega, ?_⟩
    rw [readHead, skipBlanks_gap hgap (by decide)]
    exact bind_eq_ok_iff.mpr ⟨_, hcs, rfl⟩

theorem takes_readHead_number_iff {c : Char} (hc : c = '-' ∨ c.isDigit = true) {h : Head} :
    Takes readHead (gap ++ c :: s) h t ↔
      ∃ x, Takes readNumber (c :: s) x t ∧ h = .number x := by
  have hne (d : Char) (hd : d ≠ '-' ∧ d.isDigit = false) : c ≠ d := ne_of_number hc hd
  have hread : readHead (gap ++ c :: s) = (do
      let (n, ⟨t, ht⟩) ← readNumber (c :: s)
      return (.number n, ⟨t, by
        simp only [List.length_append, List.length_cons] at ht ⊢
        omega⟩)) := by
    rw [readHead, skipBlanks_gap hgap (isBlank_number hc)]
    simp only [hne '[' (by decide), hne '\x7b' (by decide), hne 'n' (by decide),
      hne 't' (by decide), hne 'f' (by decide), hne '"' (by decide), if_false, if_pos hc]
  constructor
  · rintro ⟨ht, h⟩
    rw [hread] at h
    obtain ⟨⟨x, u, hu⟩, hx, h⟩ := bind_eq_ok_iff.mp h
    cases h
    exact ⟨x, ⟨hu, hx⟩, rfl⟩
  · rintro ⟨x, ⟨ht, hx⟩, rfl⟩
    refine ⟨by simp only [List.length_append, List.length_cons] at ht ⊢; omega, ?_⟩
    rw [hread]
    exact bind_eq_ok_iff.mpr ⟨_, hx, rfl⟩

end Head

section Values

variable {room : Nat} {s t r : List Char} {v : Value}

/-- Where neither a list nor an object begins, a value is read with its head. -/
theorem takes_readValue_leaf_iff (hlist : ∀ r, ¬ Takes readHead s .list r)
    (hobject : ∀ r, ¬ Takes readHead s .object r) :
    Takes (readValue room) s v t ↔ Takes readHead s v.head t := by
  constructor
  · intro h
    rcases takes_readValue_cases h with ⟨hhead, -⟩ | ⟨_, _, r, -, -, hhead, -⟩ |
      ⟨_, _, r, -, -, hhead, -⟩
    · exact hhead
    · exact absurd hhead (hlist r)
    · exact absurd hhead (hobject r)
  · intro h
    refine readValue_of_readHead ?_ ?_ h
    · rintro items rfl
      exact hlist t h
    · rintro es rfl
      exact hobject t h

/-- A value whose front is known without reading. -/
theorem takes_readValue_word_iff {w : Value} (hlist : w.head ≠ .list) (hobject : w.head ≠ .object)
    (h : Takes readHead s w.head r) : Takes (readValue room) s v t ↔ v = w ∧ t = r := by
  have hhead {h' : Head} {r' : List Char} (hne : w.head ≠ h') : ¬ Takes readHead s h' r' :=
    fun h' => hne (h.unique h').1
  rw [takes_readValue_leaf_iff (fun _ => hhead hlist) fun _ => hhead hobject]
  constructor
  · intro h'
    obtain ⟨hv, rfl⟩ := h.unique h'
    refine ⟨?_, rfl⟩
    cases v <;> cases w <;> simp_all [Value.head]
  · rintro ⟨rfl, rfl⟩
    exact h

theorem takes_readValue_list_iff (h : Takes readHead s .list r) :
    Takes (readValue room) s v t ↔
      ∃ n items, room = n + 1 ∧ v = .list items ∧
        Items ']' (Takes (readValue n)) true r items t := by
  constructor
  · intro hv
    rcases takes_readValue_cases hv with ⟨hhead, hlist, -⟩ |
      ⟨n, items, r', rfl, rfl, hhead, hitems⟩ | ⟨_, _, _, -, -, hhead, -⟩
    · have hlist' := (h.unique hhead).1
      cases v <;> first | exact absurd rfl (hlist _) | cases hlist'
    · obtain ⟨-, rfl⟩ := h.unique hhead
      exact ⟨n, items, rfl, rfl, hitems⟩
    · cases (h.unique hhead).1
  · rintro ⟨n, items, rfl, rfl, hitems⟩
    exact takes_readValue_list h hitems

theorem takes_readValue_members_iff (h : Takes readHead s .object r) :
    Takes (readValue room) s v t ↔
      ∃ n es, room = n + 1 ∧ v = .object es ∧ Lists (readValue n) true r es t := by
  constructor
  · intro hv
    rcases takes_readValue_cases hv with ⟨hhead, -, hobject⟩ | ⟨_, _, _, -, -, hhead, -⟩ |
      ⟨n, es, r', rfl, rfl, hhead, hes⟩
    · have hobject' := (h.unique hhead).1
      cases v <;> first | exact absurd rfl (hobject _) | cases hobject'
    · cases (h.unique hhead).1
    · obtain ⟨-, rfl⟩ := h.unique hhead
      exact ⟨n, es, rfl, rfl, hes⟩
  · rintro ⟨n, es, rfl, rfl, hes⟩
    exact takes_readValue_object h hes

end Values

/-! ## Items and members -/

/-- In the text a thing with the property is found, and nothing else, whatever follows. -/
def Finds {α : Type} (taken : List Char → α → List Char → Prop) (s : List Char)
    (P : α → Prop) : Prop :=
  ∀ rest, Stops rest → ∀ x t, taken (s ++ rest) x t ↔ P x ∧ t = rest

theorem next_comma_gap {closing : Char} {gap gap' : List Char} (hgap : Blanks gap)
    (hgap' : Blanks gap') (hcomma : closing ≠ ',') {s : List Char} (h : Begins closing s) :
    ∃ hle, next closing false (gap ++ ',' :: (gap' ++ s)) = .ok (.item ⟨s, hle⟩) := by
  obtain ⟨c, r, rfl, hblank, hclosing⟩ := h
  refine ⟨by simp only [List.length_append, List.length_cons]; omega, ?_⟩
  rw [next, skipBlanks_gap hgap (by decide)]
  simp [hcomma.symm, hclosing, skipBlanks_gap hgap' hblank]

section Items

variable {α β : Type} {closing : Char} {taken : List Char → α → List Char → Prop} {first : Bool}
  {s t r rest : List Char} {xs : List α}

theorem items_close_iff (h : ∃ hlt, next closing first s = .ok (.close ⟨r, hlt⟩)) :
    Items closing taken first s xs t ↔ xs = [] ∧ t = r := by
  obtain ⟨hlt, hnext⟩ := h
  constructor
  · intro h
    cases h with
    | close closed =>
      obtain ⟨_, hnext'⟩ := closed
      rw [hnext] at hnext'
      cases hnext'
      exact ⟨rfl, rfl⟩
    | item begun _ _ =>
      obtain ⟨_, hnext'⟩ := begun
      rw [hnext] at hnext'
      cases hnext'
  · rintro ⟨rfl, rfl⟩
    exact .close ⟨hlt, hnext⟩

theorem items_item_iff (h : ∃ hle, next closing first s = .ok (.item ⟨r, hle⟩)) :
    Items closing taken first s xs t ↔
      ∃ x u ys, taken r x u ∧ Items closing taken false u ys t ∧ xs = x :: ys := by
  obtain ⟨hle, hnext⟩ := h
  constructor
  · intro h
    cases h with
    | close closed =>
      obtain ⟨_, hnext'⟩ := closed
      rw [hnext] at hnext'
      cases hnext'
    | item begun here others =>
      obtain ⟨_, hnext'⟩ := begun
      rw [hnext] at hnext'
      cases hnext'
      exact ⟨_, _, _, here, others, rfl⟩
  · rintro ⟨x, u, ys, here, others, rfl⟩
    exact .item ⟨hle, hnext⟩ here others

variable {text : β → List Char} {P : β → α → Prop}

/-- An item that is found is the first, and those after it are the others. -/
theorem items_cons_iff {b : β} {bs : List β}
    (h : ∃ hle, next closing first s = .ok (.item ⟨text b ++ r, hle⟩))
    (hfinds : Finds taken (text b) (P b)) (hstops : Stops r)
    (hafter : ∀ ys, Items closing taken false r ys t ↔ List.Forall₂ P bs ys ∧ t = rest) :
    Items closing taken first s xs t ↔ List.Forall₂ P (b :: bs) xs ∧ t = rest := by
  rw [items_item_iff h]
  simp only [hfinds _ hstops]
  constructor
  · rintro ⟨x, u, ys, ⟨hx, rfl⟩, hys, rfl⟩
    obtain ⟨hvalues, rfl⟩ := (hafter ys).mp hys
    exact ⟨.cons hx hvalues, rfl⟩
  · rintro ⟨⟨⟩ | ⟨hx, hys⟩, rfl⟩
    exact ⟨_, _, _, ⟨hx, rfl⟩, (hafter _).mpr ⟨hys, rfl⟩, rfl⟩

variable (hclosing : closing = ']' ∨ closing = '\x7d')
include hclosing

/-- What comes after an item stops a number. -/
theorem stops_parts {gap : List Char} (hgap : Blanks gap) (parts : List (Part β)) :
    Stops (gap ++ (parts.flatMap (fun p => ',' :: p.chars text) ++ closing :: rest)) := by
  refine Stops.gap hgap ?_
  cases parts with
  | nil => exact stops_cons (Or.inr (Or.inr hclosing)) rest
  | cons p parts => exact stops_cons (by simp) _

/-- Items that follow another, each after a comma. -/
theorem items_after_iff {gap : List Char} (hgap : Blanks gap) {parts : List (Part β)}
    (hblank : ∀ p ∈ parts, p.Blank) (hbegins : ∀ p ∈ parts, Begins closing (text p.content))
    (hfinds : ∀ p ∈ parts, Finds taken (text p.content) (P p.content)) :
    Items closing taken false
        (gap ++ (parts.flatMap (fun p => ',' :: p.chars text) ++ closing :: rest)) xs t ↔
      List.Forall₂ P (parts.map Part.content) xs ∧ t = rest := by
  have hcomma : closing ≠ ',' := by rcases hclosing with rfl | rfl <;> decide
  induction parts generalizing gap xs with
  | nil =>
    have hblank : isBlank closing = false := by rcases hclosing with rfl | rfl <;> rfl
    simp [items_close_iff (next_close hgap hblank false rest)]
  | cons p parts ih =>
    rw [List.forall_mem_cons] at hblank hbegins hfinds
    have hstops : Stops (p.after ++
        (parts.flatMap (fun p => ',' :: p.chars text) ++ closing :: rest)) :=
      stops_parts hclosing hblank.1.after parts
    have happend : gap ++ ((p :: parts).flatMap (fun p => ',' :: p.chars text) ++
          closing :: rest) =
        gap ++ ',' :: (p.before ++ (text p.content ++ (p.after ++
          (parts.flatMap (fun p => ',' :: p.chars text) ++ closing :: rest)))) := by
      simp [Part.chars]
    rw [happend]
    exact items_cons_iff (next_comma_gap hgap hblank.1.before hcomma (hbegins.1.append _))
      hfinds.1 hstops fun _ => ih hblank.1.after hblank.2 hbegins.2 hfinds.2

/-- **Items between commas** are read one by one. -/
theorem items_parts_iff {parts : List (Part β)} (hsome : parts ≠ [])
    (hblank : ∀ p ∈ parts, p.Blank) (hbegins : ∀ p ∈ parts, Begins closing (text p.content))
    (hfinds : ∀ p ∈ parts, Finds taken (text p.content) (P p.content)) :
    Items closing taken true (commaSeparated (parts.map (Part.chars text)) ++ closing :: rest)
        xs t ↔
      List.Forall₂ P (parts.map Part.content) xs ∧ t = rest := by
  cases parts with
  | nil => exact absurd rfl hsome
  | cons p parts =>
    rw [List.forall_mem_cons] at hblank hbegins hfinds
    have hstops : Stops (p.after ++
        (parts.flatMap (fun p => ',' :: p.chars text) ++ closing :: rest)) :=
      stops_parts hclosing hblank.1.after parts
    have happend : commaSeparated ((p :: parts).map (Part.chars text)) ++ closing :: rest =
        p.before ++ (text p.content ++ (p.after ++
          (parts.flatMap (fun p => ',' :: p.chars text) ++ closing :: rest))) := by
      simp [commaSeparated_cons, Part.chars, List.flatMap_map]
    rw [happend]
    exact items_cons_iff (next_first hblank.1.before (hbegins.1.append _)) hfinds.1 hstops
      fun _ => items_after_iff hclosing hblank.1.after hblank.2 hbegins.2 hfinds.2

end Items

/-! ## Members -/

/-- A name in quotes is read as the string of its pieces. -/
theorem takes_readString_iff {ps : List Piece} {p s t : List Char} (h : SpellsPieces ps p)
    {name : String} :
    Takes readString ('"' :: (p ++ '"' :: s)) name t ↔ stringOf? ps = some name ∧ t = s := by
  rw [stringOf?, Option.map_eq_some_iff]
  constructor
  · rintro ⟨ht, hread⟩
    rw [readString, if_pos rfl] at hread
    obtain ⟨⟨cs, u, hu⟩, hcs, hread⟩ := bind_eq_ok_iff.mp hread
    cases hread
    obtain ⟨hdecode, rfl⟩ := (takes_readChars_iff h).mp ⟨hu, hcs⟩
    exact ⟨⟨cs, hdecode, rfl⟩, rfl⟩
  · rintro ⟨⟨cs, hdecode, rfl⟩, rfl⟩
    obtain ⟨hu, hcs⟩ := (takes_readChars_iff h).mpr ⟨hdecode, rfl⟩
    refine ⟨length_lt_cons_of_lt _ hu, ?_⟩
    rw [readString, if_pos rfl]
    exact bind_eq_ok_iff.mpr ⟨_, hcs, rfl⟩

theorem takes_readColon_iff {gap s t : List Char} (hgap : Blanks gap) :
    Takes readColon (gap ++ ':' :: s) () t ↔ t = s := by
  have hcolon : Takes readColon (gap ++ ':' :: s) () s := by
    refine ⟨by simp only [List.length_append, List.length_cons]; omega, ?_⟩
    rw [readColon, skipBlanks_gap hgap (by decide)]
    simp
  constructor
  · intro h
    exact (h.unique hcolon).2
  · rintro rfl
    exact hcolon

/-- A member is read as its name and its value. -/
theorem finds_member {value : Reader Value} {m : Member} (hname : SpellsPieces m.pieces m.name)
    (hmiddle : Blanks m.middle) {fits : Prop}
    (h : Finds (Takes value) (m.behind ++ m.text) fun v => fits ∧ m.tree.value? = some v) :
    Finds (TakesMember value) m.chars fun e => fits ∧ Tree.IsMember (m.pieces, m.tree) e := by
  intro rest hrest e t
  have happend : m.chars ++ rest =
      '"' :: (m.name ++ '"' :: (m.middle ++ ':' :: (m.behind ++ m.text ++ rest))) := by
    simp [Member.chars]
  rw [happend, TakesMember]
  simp only [takes_readString_iff hname]
  constructor
  · rintro ⟨_, u, ⟨hkey, rfl⟩, hcolon, hvalue⟩
    rw [takes_readColon_iff hmiddle] at hcolon
    subst hcolon
    obtain ⟨⟨hfits, hv⟩, rfl⟩ := (h rest hrest e.2 t).mp hvalue
    exact ⟨⟨hfits, hkey, hv⟩, rfl⟩
  · rintro ⟨⟨hfits, hkey, hvalue⟩, rfl⟩
    exact ⟨_, _, ⟨hkey, rfl⟩, (takes_readColon_iff hmiddle).mpr rfl,
      (h _ hrest e.2 _).mpr ⟨⟨hfits, hvalue⟩, rfl⟩⟩

/-! ## Values -/

/-- A value begins with what is no blank and no closing bracket. -/
theorem Tree.Spells.begins {t : Tree} {s : List Char} (h : t.Spells s) : Begins ']' s := by
  cases h with
  | null => exact ⟨'n', _, rfl, by decide, by decide⟩
  | bool b => cases b <;> exact ⟨_, _, rfl, by decide, by decide⟩
  | number h =>
    obtain ⟨c, r, rfl, hc⟩ := h.head
    exact ⟨c, r, rfl, isBlank_number hc, ne_of_number hc (by decide)⟩
  | text _ => exact ⟨'"', _, rfl, by decide, by decide⟩
  | noItems _ => exact ⟨'[', _, rfl, by decide, by decide⟩
  | items _ _ _ => exact ⟨'[', _, rfl, by decide, by decide⟩
  | noMembers _ => exact ⟨'\x7b', _, rfl, by decide, by decide⟩
  | members _ _ _ _ _ => exact ⟨'\x7b', _, rfl, by decide, by decide⟩

theorem Member.begins (m : Member) : Begins '\x7d' m.chars :=
  ⟨'"', _, rfl, by decide, by decide⟩

theorem head_eq_number_iff {v : Value} {x : Number} : v.head = .number x ↔ v = .number x := by
  cases v <;> simp [Value.head]

theorem head_eq_text_iff {v : Value} {s : String} : v.head = .text s ↔ v = .text s := by
  cases v <;> simp [Value.head]

section Leaves

variable {room : Nat} {gap rest t : List Char} (hgap : Blanks gap) {v : Value}
include hgap

theorem takes_readValue_number_iff {n : Numeral} {s : List Char} (h : n.Spells s)
    (hrest : Stops rest) :
    Takes (readValue room) (gap ++ (s ++ rest)) v t ↔
      (Tree.number n).value? = some v ∧ t = rest := by
  obtain ⟨c, r, rfl, hc⟩ := h.head
  have hhead (head : Head) (t : List Char) : Takes readHead (gap ++ c :: (r ++ rest)) head t ↔
      ∃ x, (n.value? = some x ∧ t = rest) ∧ head = .number x := by
    rw [takes_readHead_number_iff hgap hc]
    simp only [← List.cons_append, takes_readNumber_iff h hrest]
  rw [List.cons_append, takes_readValue_leaf_iff (by simp [hhead]) (by simp [hhead]), hhead,
    Tree.value?, Option.map_eq_some_iff]
  constructor
  · rintro ⟨x, ⟨hx, ht⟩, hv⟩
    exact ⟨⟨x, hx, (head_eq_number_iff.mp hv).symm⟩, ht⟩
  · rintro ⟨⟨x, hx, rfl⟩, ht⟩
    exact ⟨x, ⟨hx, ht⟩, rfl⟩

theorem takes_readValue_pieces_iff {ps : List Piece} {s : List Char} (h : SpellsPieces ps s) :
    Takes (readValue room) (gap ++ '"' :: (s ++ '"' :: rest)) v t ↔
      (Tree.text ps).value? = some v ∧ t = rest := by
  have hhead (head : Head) (t : List Char) :
      Takes readHead (gap ++ '"' :: (s ++ '"' :: rest)) head t ↔
        ∃ cs, (decode ps = some cs ∧ t = rest) ∧ head = .text (.ofList cs) := by
    rw [takes_readHead_text_iff hgap]
    simp only [takes_readChars_iff h]
  rw [takes_readValue_leaf_iff (by simp [hhead]) (by simp [hhead]), hhead, Tree.value?,
    stringOf?, Option.map_map, Option.map_eq_some_iff]
  constructor
  · rintro ⟨cs, ⟨hcs, ht⟩, hv⟩
    exact ⟨⟨cs, hcs, (head_eq_text_iff.mp hv).symm⟩, ht⟩
  · rintro ⟨⟨cs, hcs, rfl⟩, ht⟩
    exact ⟨cs, ⟨hcs, ht⟩, rfl⟩

end Leaves

/-- The items of a list fit into the room that is left, and have their values. -/
theorem Tree.list_value?_iff {ts : List Tree} {room : Nat} {v : Value} :
    (Tree.list ts).Within room ∧ (Tree.list ts).value? = some v ↔
      ∃ n items, room = n + 1 ∧ v = .list items ∧
        List.Forall₂ (fun t x => t.Within n ∧ t.value? = some x) ts items := by
  simp only [Tree.value?, Option.map_eq_some_iff, Tree.values?_eq_some_iff,
    Tree.within_list_iff, List.forall₂_and_left]
  constructor
  · rintro ⟨⟨n, rfl, hn⟩, items, hitems, rfl⟩
    exact ⟨n, items, rfl, rfl, hn, hitems⟩
  · rintro ⟨n, items, rfl, rfl, hn, hitems⟩
    exact ⟨⟨n, rfl, hn⟩, items, hitems, rfl⟩

theorem Tree.object_value?_iff {ms : List (List Piece × Tree)} {room : Nat} {v : Value} :
    (Tree.object ms).Within room ∧ (Tree.object ms).value? = some v ↔
      ∃ n es, room = n + 1 ∧ v = .object es ∧
        List.Forall₂ (fun m e => m.2.Within n ∧ Tree.IsMember m e) ms es := by
  simp only [Tree.value?, Option.map_eq_some_iff, Tree.members?_eq_some_iff,
    Tree.within_object_iff, List.forall₂_and_left]
  constructor
  · rintro ⟨⟨n, rfl, hn⟩, es, hes, rfl⟩
    exact ⟨n, es, rfl, rfl, hn, hes⟩
  · rintro ⟨n, es, rfl, rfl, hn, hes⟩
    exact ⟨⟨n, rfl, hn⟩, es, hes, rfl⟩

/-- **The value of a tree is read** off every text that spells the tree, if there is room. -/
theorem takes_readValue_iff {tree : Tree} {s : List Char} (h : tree.Spells s) {room : Nat}
    {gap rest t : List Char} (hgap : Blanks gap) (hrest : Stops rest) {v : Value} :
    Takes (readValue room) (gap ++ (s ++ rest)) v t ↔
      (tree.Within room ∧ tree.value? = some v) ∧ t = rest := by
  induction h generalizing room gap rest v t with
  | null =>
    rw [show ['n', 'u', 'l', 'l'] ++ rest = 'n' :: 'u' :: 'l' :: 'l' :: rest from rfl,
      takes_readValue_word_iff (w := .null) (by simp [Value.head]) (by simp [Value.head])
        (readHead_null hgap rest)]
    simp [Tree.value?, Tree.Within.null, eq_comm]
  | bool b =>
    rw [takes_readValue_word_iff (w := .bool b) (by simp [Value.head]) (by simp [Value.head])
      (readHead_bool hgap b rest)]
    simp [Tree.value?, Tree.Within.bool, eq_comm]
  | @number n s h =>
    rw [takes_readValue_number_iff hgap h hrest]
    simp [Tree.Within.number]
  | @text ps s h =>
    rw [List.cons_append, List.append_assoc, List.singleton_append,
      takes_readValue_pieces_iff hgap h]
    simp [Tree.Within.text]
  | @noItems inside h =>
    have hclose : ∃ hlt, next ']' true (inside ++ ']' :: rest) = .ok (.close ⟨rest, hlt⟩) :=
      next_close h (by decide) true rest
    rw [List.cons_append, List.append_assoc, List.singleton_append,
      takes_readValue_list_iff (readHead_list hgap _), Tree.list_value?_iff]
    simp only [items_close_iff hclose, List.forall₂_nil_left_iff, ← and_assoc, exists_and_right]
  | @items parts some blank h ih =>
    have hitems (n : Nat) (items : List Value) : Items ']' (Takes (readValue n)) true
        (commaSeparated (parts.map (Part.chars Item.text)) ++ ']' :: rest) items t ↔
        List.Forall₂ (fun i v => i.tree.Within n ∧ i.tree.value? = Option.some v)
          (parts.map Part.content) items ∧ t = rest :=
      items_parts_iff (Or.inl rfl) some blank (fun p hp => (h p hp).begins)
        fun p hp _ hrest _ _ => ih p hp blanks_nil hrest
    rw [List.cons_append, List.append_assoc, List.singleton_append,
      takes_readValue_list_iff (readHead_list hgap _), Tree.list_value?_iff]
    simp only [hitems, List.forall₂_map_left_iff, ← and_assoc, exists_and_right]
  | @noMembers inside h =>
    have hclose : ∃ hlt, next '\x7d' true (inside ++ '\x7d' :: rest) =
        .ok (.close ⟨rest, hlt⟩) :=
      next_close h (by decide) true rest
    rw [List.cons_append, List.append_assoc, List.singleton_append,
      takes_readValue_members_iff (readHead_object hgap _), Tree.object_value?_iff]
    simp only [items_close_iff hclose, List.forall₂_nil_left_iff, ← and_assoc, exists_and_right]
  | @members parts some blank names colons h ih =>
    have hmembers (n : Nat) (es : List (String × Value)) : Lists (readValue n) true
        (commaSeparated (parts.map (Part.chars Member.chars)) ++ '\x7d' :: rest) es t ↔
        List.Forall₂ (fun m e => m.tree.Within n ∧ Tree.IsMember (m.pieces, m.tree) e)
          (parts.map Part.content) es ∧ t = rest := by
      refine items_parts_iff (Or.inr rfl) some blank (fun p _ => p.content.begins) fun p hp => ?_
      refine finds_member (names p hp) (colons p hp).1 fun rest hrest v t => ?_
      rw [List.append_assoc]
      exact ih p hp (colons p hp).2 hrest
    rw [List.cons_append, List.append_assoc, List.singleton_append,
      takes_readValue_members_iff (readHead_object hgap _), Tree.object_value?_iff]
    simp only [hmembers, List.forall₂_map_left_iff, ← and_assoc, exists_and_right]

/-- **Whole texts.**  A document is read as the value of its tree. -/
theorem readAll_readValue_iff {source : String} {tree : Tree} (h : IsDocument source tree)
    {room : Nat} {v : Value} :
    readAll (readValue room) source = .ok v ↔ tree.Within room ∧ tree.value? = some v := by
  obtain ⟨before, s, after, hbefore, hafter, hs, hsource⟩ := h
  have hstops : Stops after := by simpa using Stops.gap hafter stops_nil
  have hskip : (skipBlanks after).1 = [] := List.dropWhile_eq_nil_iff.mpr hafter
  rw [readAll_eq_ok_iff, hsource]
  simp only [takes_readValue_iff hs hbefore hstops]
  constructor
  · rintro ⟨_, ⟨hv, -⟩, -⟩
    exact hv
  · intro hv
    exact ⟨after, ⟨hv, rfl⟩, hskip⟩

end Transducers.Json
