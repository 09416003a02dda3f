import Transducers.Json.Fault

/-!
# Reading from a text

A reader takes a value off the front of a text.  It always uses up something, and
says so in its type, so that reading a list or an object ends with the text.

* `readString`: a string with its escapes;
* `readNumber`: a number;
* `readHead`: a value without parts, or the opening bracket of one with parts;
* `elements`: the rest of a list, after its opening bracket;
* `foldMembers`: the rest of an object, member by member;
* `readAll`: a whole text.
-/

namespace Transducers.Json

/-- What is left of a text when something was taken off its front. -/
abbrev Rest (s : List Char) := { r : List Char // r.length < s.length }

/-- What is left of a text when something may have been taken off its front. -/
abbrev Tail (s : List Char) := { r : List Char // r.length ≤ s.length }

abbrev Reader (α : Type) := (s : List Char) → Except Fault (α × Rest s)

theorem length_lt_cons (c : Char) (s : List Char) : s.length < (c :: s).length :=
  Nat.lt_succ_self _

theorem length_lt_cons_of_lt (c : Char) {r s : List Char} (h : r.length < s.length) :
    r.length < (c :: s).length :=
  Nat.lt_succ_of_lt h

theorem length_lt_trans {r s t : List Char} (h : r.length < s.length) (h' : t.length < r.length) :
    t.length < s.length :=
  Nat.lt_trans h' h

/-! ## Blanks -/

def isBlank (c : Char) : Bool := c == ' ' || c == '\t' || c == '\n' || c == '\r'

def skipBlanks (s : List Char) : Tail s :=
  ⟨s.dropWhile isBlank, (List.dropWhile_sublist _).length_le⟩

/-! ## Strings -/

/-- The character for which a letter after a backslash stands. -/
def escaped? (c : Char) : Option Char :=
  match c with
  | '"' => some '"'
  | '\\' => some '\\'
  | '/' => some '/'
  | 'b' => some '\x08'
  | 'f' => some '\x0c'
  | 'n' => some '\n'
  | 'r' => some '\r'
  | 't' => some '\t'
  | _ => none

def hexValue? (c : Char) : Option Nat :=
  if '0' ≤ c ∧ c ≤ '9' then some (c.toNat - '0'.toNat)
  else if 'a' ≤ c ∧ c ≤ 'f' then some (c.toNat - 'a'.toNat + 10)
  else if 'A' ≤ c ∧ c ≤ 'F' then some (c.toNat - 'A'.toNat + 10)
  else none

/-- Four hexadecimal digits.  The text breaks off here if fewer than four bytes
of it are left. -/
def readHex4 : Reader Nat
  | a :: b :: c :: d :: r =>
    match hexValue? a, hexValue? b, hexValue? c, hexValue? d with
    | some a, some b, some c, some d =>
      .ok (((a * 16 + b) * 16 + c) * 16 + d, ⟨r, by simp only [List.length_cons]; omega⟩)
    | _, _, _, _ => .error .malformed
  | s => if s.foldr (fun c n => c.utf8Size + n) 0 < 4 then .error .truncated else .error .malformed

def isLeadSurrogate (n : Nat) : Bool := 0xd800 ≤ n && n ≤ 0xdbff

def isTrailSurrogate (n : Nat) : Bool := 0xdc00 ≤ n && n ≤ 0xdfff

/-- The second half of a character that takes two units, with its `\u`. -/
def readTrail : Reader Nat
  | '\\' :: 'u' :: r => do
    let (n, ⟨t, ht⟩) ← readHex4 r
    if isTrailSurrogate n then
      return (n, ⟨t, by simp only [List.length_cons]; omega⟩)
    else throw .malformed
  | [] => .error .truncated
  | ['\\'] => .error .truncated
  | _ => .error .malformed

/-- The character of an escape, after the backslash. -/
def readEscape : Reader Char
  | [] => .error .truncated
  | c :: r =>
    match escaped? c with
    | some e => .ok (e, ⟨r, length_lt_cons c r⟩)
    | none =>
      if c = 'u' then do
        let (n, ⟨t, ht⟩) ← readHex4 r
        if isLeadSurrogate n then
          let (k, ⟨u, hu⟩) ← readTrail t
          return (.ofNat (0x10000 + (n - 0xd800) * 0x400 + (k - 0xdc00)),
            ⟨u, length_lt_cons_of_lt c (length_lt_trans ht hu)⟩)
        else if isTrailSurrogate n then throw .malformed
        else return (.ofNat n, ⟨t, length_lt_cons_of_lt c ht⟩)
      else .error .malformed

/-- The characters of a string, after its opening quote. -/
def readChars (s : List Char) : Except Fault (List Char × Rest s) :=
  match s with
  | [] => .error .truncated
  | c :: r =>
    if c = '"' then .ok ([], ⟨r, by simp⟩)
    else if c = '\\' then do
      let (e, ⟨t, ht⟩) ← readEscape r
      let (cs, ⟨u, hu⟩) ← readChars t
      return (e :: cs, ⟨u, by simp only [List.length_cons]; omega⟩)
    else if c.toNat < 32 then .error .malformed
    else do
      let (cs, ⟨u, hu⟩) ← readChars r
      return (c :: cs, ⟨u, by simp only [List.length_cons]; omega⟩)
termination_by s.length
decreasing_by all_goals (simp only [List.length_cons]; omega)

/-- A string with its quotes. -/
def readString : Reader String
  | [] => .error .truncated
  | c :: r =>
    if c = '"' then do
      let (cs, ⟨t, ht⟩) ← readChars r
      return (.ofList cs, ⟨t, by simp only [List.length_cons]; omega⟩)
    else .error .malformed

/-- A string where nothing else may come, after blanks. -/
def readQuoted : Reader String := fun s => do
  let ⟨r, hr⟩ := skipBlanks s
  let (text, ⟨t, ht⟩) ← readString r
  return (text, ⟨t, by omega⟩)

/-! ## Numbers -/

/-- The digits of a number, as they are written. -/
structure Numeral where
  negative : Bool
  whole : List Char
  /-- The digits after the point; none if there is no point. -/
  fraction : List Char
  /-- The digits of the exponent, and whether it is negative. -/
  exponent : Option (Bool × List Char)
  deriving DecidableEq, Repr

/-- At least one digit, and all that follow. -/
def readDigits (s : List Char) : Except Fault (List Char × Rest s) :=
  match s with
  | [] => .error .truncated
  | c :: r =>
    if c.isDigit then
      .ok (c :: r.takeWhile Char.isDigit, ⟨r.dropWhile Char.isDigit, by
        have := (List.dropWhile_sublist (l := r) Char.isDigit).length_le
        simp only [List.length_cons]; omega⟩)
    else .error .malformed

/-- Digits without a zero in front of others. -/
def readWhole (s : List Char) : Except Fault (List Char × Rest s) := do
  let (digits, r) ← readDigits s
  match digits with
  | '0' :: _ :: _ => throw .malformed
  | _ => return (digits, r)

def readFraction (s : List Char) : Except Fault (List Char × Tail s) :=
  match s with
  | '.' :: r => do
    let (digits, ⟨t, ht⟩) ← readDigits r
    return (digits, ⟨t, by simp only [List.length_cons]; omega⟩)
  | t => .ok ([], ⟨t, Nat.le_refl _⟩)

/-- A sign, if there is one: whether it is a minus. -/
def readSign (s : List Char) : Bool × Tail s :=
  match s with
  | '+' :: r => (false, ⟨r, by simp⟩)
  | '-' :: r => (true, ⟨r, by simp⟩)
  | t => (false, ⟨t, Nat.le_refl _⟩)

def readExponent (s : List Char) : Except Fault (Option (Bool × List Char) × Tail s) :=
  match s with
  | [] => .ok (none, ⟨[], Nat.le_refl _⟩)
  | c :: r =>
    if c = 'e' ∨ c = 'E' then do
      let (negative, ⟨t, ht⟩) := readSign r
      let (digits, ⟨u, hu⟩) ← readDigits t
      return (some (negative, digits), ⟨u, by simp only [List.length_cons]; omega⟩)
    else .ok (none, ⟨c :: r, Nat.le_refl _⟩)

/-- The text before a number's digits: whether there is a minus. -/
def readMinus (s : List Char) : Bool × Tail s :=
  match s with
  | '-' :: r => (true, ⟨r, by simp⟩)
  | t => (false, ⟨t, Nat.le_refl _⟩)

def readNumeral : Reader Numeral := fun s => do
  let (negative, ⟨r, hr⟩) := readMinus s
  let (whole, ⟨t, ht⟩) ← readWhole r
  let (fraction, ⟨u, hu⟩) ← readFraction t
  let (exponent, ⟨v, hv⟩) ← readExponent u
  return (⟨negative, whole, fraction, exponent⟩, ⟨v, by omega⟩)

/-- Take digits into a number as long as it stays below `2 ^ 64`: the number, and
how many digits were taken. -/
def accumulate (n : Nat) : List Char → Nat × Nat
  | [] => (n, 0)
  | c :: r =>
    let m := 10 * n + (c.toNat - '0'.toNat)
    if m < Nat.pow 2 64 then
      let (value, count) := accumulate m r
      (value, count + 1)
    else (n, 0)

/-- The number that digits denote. -/
def ofDigits (digits : List Char) : Nat :=
  digits.foldl (fun n c => 10 * n + (c.toNat - '0'.toNat)) 0

/-- The number that is meant, or nothing if it is too great.  The leading digits
that fit into 64 bits count, all others only move the point.  Minus zero, and a
whole number that does not fit, are floating point. -/
def Numeral.value? (n : Numeral) : Option Number :=
  let (whole, taken) := accumulate 0 n.whole
  let dropped := n.whole.length - taken
  if n.fraction = [] ∧ n.exponent = none ∧ dropped = 0 ∧
      (n.negative = false ∨ (0 < whole ∧ whole ≤ Nat.pow 2 63)) then
    some (.whole (if n.negative then -whole else whole))
  else
    let (significand, places) := accumulate whole n.fraction
    let exponent : Int :=
      match n.exponent with
      | none => 0
      | some (negative, digits) => if negative then -(ofDigits digits) else ofDigits digits
    let shift : Int := dropped - places
    ((Magnitude.ofNat significand).scale (shift + exponent)).map fun m => .real ⟨n.negative, m⟩

def readNumber : Reader Number := fun s => do
  let (numeral, r) ← readNumeral s
  match numeral.value? with
  | some n => return (n, r)
  | none => throw .malformed

/-! ## The front of a value -/

/-- The letters of a word, one after another. -/
def readWord (word : List Char) (s : List Char) : Except Fault (Tail s) :=
  match word, s with
  | [], s => .ok ⟨s, Nat.le_refl _⟩
  | _ :: _, [] => .error .truncated
  | w :: word, c :: r =>
    if c = w then do
      let ⟨t, ht⟩ ← readWord word r
      return ⟨t, by simp only [List.length_cons]; omega⟩
    else .error .malformed

/-- A value without parts, or the opening bracket of one with parts, after blanks. -/
def readHead : Reader Head := fun s =>
  match skipBlanks s with
  | ⟨[], _⟩ => .error .truncated
  | ⟨c :: r, h⟩ =>
    have h : r.length < s.length := by simp only [List.length_cons] at h; omega
    if c = '[' then .ok (.list, ⟨r, h⟩)
    else if c = '\x7b' then .ok (.object, ⟨r, h⟩)
    else if c = 'n' then do
      let ⟨t, ht⟩ ← readWord ['u', 'l', 'l'] r
      return (.null, ⟨t, by omega⟩)
    else if c = 't' then do
      let ⟨t, ht⟩ ← readWord ['r', 'u', 'e'] r
      return (.bool true, ⟨t, by omega⟩)
    else if c = 'f' then do
      let ⟨t, ht⟩ ← readWord ['a', 'l', 's', 'e'] r
      return (.bool false, ⟨t, by omega⟩)
    else if c = '"' then do
      let (cs, ⟨t, ht⟩) ← readChars r
      return (.text (.ofList cs), ⟨t, by omega⟩)
    else if c = '-' ∨ c.isDigit then do
      let (n, ⟨t, ht⟩) ← readNumber (c :: r)
      return (.number n, ⟨t, by simp only [List.length_cons] at ht; omega⟩)
    else .error .malformed

/-! ## Lists and objects -/

/-- Where a list or an object goes on: at its end, or at another item. -/
inductive Next (s : List Char) where
  | close (r : Rest s)
  | item (r : Tail s)

/-- Pass the comma before an item, or the closing bracket.  The first item has no
comma, and nothing but an item follows one. -/
def next (closing : Char) (first : Bool) (s : List Char) : Except Fault (Next s) :=
  match skipBlanks s with
  | ⟨[], _⟩ => .error .truncated
  | ⟨c :: r, h⟩ =>
    have h : r.length < s.length := by simp only [List.length_cons] at h; omega
    if c = closing then .ok (.close ⟨r, h⟩)
    else if first then .ok (.item ⟨c :: r, by simp only [List.length_cons]; omega⟩)
    else if c = ',' then
      match skipBlanks r with
      | ⟨[], _⟩ => .error .truncated
      | ⟨d :: t, ht⟩ =>
        if d = closing then .error .malformed
        else .ok (.item ⟨d :: t, by omega⟩)
    else .error .malformed

/-- The colon between a name and its value. -/
def readColon : Reader Unit := fun s =>
  match skipBlanks s with
  | ⟨[], _⟩ => .error .truncated
  | ⟨c :: r, h⟩ =>
    if c = ':' then .ok ((), ⟨r, by simp only [List.length_cons] at h; omega⟩)
    else .error .malformed

/-- A closing bracket, where nothing else may come. -/
def readClose (closing : Char) : Reader Unit := fun s =>
  match skipBlanks s with
  | ⟨[], _⟩ => .error .truncated
  | ⟨c :: r, h⟩ =>
    if c = closing then .ok ((), ⟨r, by simp only [List.length_cons] at h; omega⟩)
    else .error .malformed

/-- Items up to the end of the list. -/
def elements {α : Type} (item : Reader α) (first : Bool) (s : List Char) :
    Except Fault (List α × Rest s) := do
  match ← next ']' first s with
  | .close r => return ([], r)
  | .item ⟨r, hr⟩ =>
    let (x, ⟨t, ht⟩) ← item r
    let (xs, ⟨u, hu⟩) ← elements item false t
    return (x :: xs, ⟨u, by omega⟩)
termination_by s.length
decreasing_by omega

/-- Members up to the end of the object.  What is known so far and the name of a
member decide how its value is read, or that it must not be there. -/
def foldMembers {σ : Type} (name : Reader String) (member : σ → String → Except Mismatch (Reader σ))
    (first : Bool) (known : σ) (s : List Char) : Except Fault (σ × Rest s) := do
  match ← next '\x7d' first s with
  | .close r => return (known, r)
  | .item ⟨r, hr⟩ =>
    let (key, ⟨t, ht⟩) ← name r
    let value ← (member known key).mapError .mismatch
    let (_, ⟨u, hu⟩) ← readColon t
    let (known, ⟨v, hv⟩) ← value u
    let (known, ⟨w, hw⟩) ← foldMembers name member false known v
    return (known, ⟨w, by omega⟩)
termination_by s.length
decreasing_by omega

/-! ## Whole texts -/

/-- A reader for a text with nothing but blanks after the value. -/
def readAll {α : Type} (read : Reader α) (s : String) : Except Fault α := do
  let (x, ⟨r, _⟩) ← read s.toList
  if (skipBlanks r).1.isEmpty then return x else throw .malformed

end Transducers.Json
