import Mathlib.Data.List.Forall2
import Transducers.Proofs.JsonText

/-!
# JSON texts by their grammar

What a JSON text is, said without a reader: a tree of the parts that are written, and the texts
that spell it.  A tree keeps what the rules of JSON leave open, so that a number of any size and
half of a character that takes two units are parts of a text; which value the text has, if it has
one, is another question.

* `Piece`, `decode`: the pieces of a string, and the characters that they stand for;
* `Numeral.Spells`: the texts of a number;
* `Tree`, `Tree.Spells`: the parts of a text, and the texts that have them;
* `Tree.Paired`, `Tree.InRange`, `Tree.Within`: what a tree may lack;
* `Tree.value?`: the value of a tree, and `Tree.value?_ne_none_iff`: which trees have one;
* `IsDocument`: the text has just these parts.
-/

namespace Transducers.Json

/-! ## Strings -/

/-- A piece of a string: a character, or a unit of 16 bits that is given by its number. -/
inductive Piece where
  | char (c : Char)
  | unit (n : Nat)
  deriving DecidableEq, Repr

/-- The letters that stand for a character after a backslash. -/
def shortEscapes : List (Char × Char) :=
  [('"', '"'), ('\\', '\\'), ('/', '/'), ('b', '\x08'), ('f', '\x0c'), ('n', '\n'), ('r', '\r'),
    ('t', '\t')]

inductive Piece.Spells : Piece → List Char → Prop
  | plain {c : Char} (quote : c ≠ '"') (backslash : c ≠ '\\') (control : 32 ≤ c.toNat) :
      Spells (.char c) [c]
  | short {letter c : Char} (h : (letter, c) ∈ shortEscapes) : Spells (.char c) ['\\', letter]
  | hex {a b c d : Char} {i j k l : Nat} (first : hexValue? a = some i)
      (second : hexValue? b = some j) (third : hexValue? c = some k)
      (fourth : hexValue? d = some l) :
      Spells (.unit (((i * 16 + j) * 16 + k) * 16 + l)) ['\\', 'u', a, b, c, d]

/-- The texts of pieces, without quotes. -/
inductive SpellsPieces : List Piece → List Char → Prop
  | nil : SpellsPieces [] []
  | cons {p : Piece} {ps : List Piece} {s t : List Char} (first : p.Spells s)
      (others : SpellsPieces ps t) : SpellsPieces (p :: ps) (s ++ t)

/-- The character of a pair of units. -/
def pairedChar (lead trail : Nat) : Char :=
  .ofNat (0x10000 + (lead - 0xd800) * 0x400 + (trail - 0xdc00))

/-- The characters that pieces stand for; none if half a pair of units is missing. -/
def decode : List Piece → Option (List Char)
  | [] => some []
  | .char c :: ps => (decode ps).map (c :: ·)
  | .unit n :: ps =>
    if isLeadSurrogate n then
      match ps with
      | .unit k :: qs =>
        if isTrailSurrogate k then (decode qs).map (pairedChar n k :: ·) else none
      | _ => none
    else if isTrailSurrogate n then none
    else (decode ps).map (Char.ofNat n :: ·)

theorem decode_pair {n k : Nat} {qs : List Piece} (hlead : isLeadSurrogate n = true)
    (htrail : isTrailSurrogate k = true) :
    decode (.unit n :: .unit k :: qs) = (decode qs).map (pairedChar n k :: ·) := by
  simp [decode, hlead, htrail]

/-- The first unit of a pair needs the second. -/
theorem decode_lead {n : Nat} {ps : List Piece} (hlead : isLeadSurrogate n = true)
    (h : ∀ k qs, ps = .unit k :: qs → isTrailSurrogate k = false) :
    decode (.unit n :: ps) = none := by
  rw [decode.eq_def]
  simp only [hlead, if_true]
  split
  · rename_i k qs
    simp [h k qs rfl]
  · rfl

theorem decode_single {n : Nat} {ps : List Piece} (hlead : isLeadSurrogate n = false) :
    decode (.unit n :: ps) =
      if isTrailSurrogate n then none else (decode ps).map (Char.ofNat n :: ·) := by
  rw [decode.eq_def]
  simp [hlead]

/-- The string of pieces. -/
def stringOf? (ps : List Piece) : Option String := (decode ps).map .ofList

/-- A string without escapes. -/
def plain (s : String) : List Piece := s.toList.map .char

@[simp] theorem stringOf?_plain (s : String) : stringOf? (plain s) = some s := by
  have hdecode (cs : List Char) : decode (cs.map .char) = some cs := by
    induction cs with
    | nil => rfl
    | cons c cs ih => simp [decode, ih]
  simp [stringOf?, plain, hdecode]

/-- The character need not be escaped. -/
def isPlain (c : Char) : Bool := c != '"' && c != '\\' && 32 ≤ c.toNat

theorem spells_plain {s : String} (h : s.toList.all isPlain = true) :
    SpellsPieces (plain s) s.toList := by
  have hchars (cs : List Char) (h : cs.all isPlain = true) :
      SpellsPieces (cs.map .char) cs := by
    induction cs with
    | nil => exact .nil
    | cons c cs ih =>
      rw [List.all_cons, Bool.and_eq_true] at h
      obtain ⟨hc, h⟩ := h
      obtain ⟨⟨hquote, hslash⟩, hcontrol⟩ : (c ≠ '"' ∧ c ≠ '\\') ∧ 32 ≤ c.toNat := by
        simpa [isPlain] using hc
      exact .cons (.plain hquote hslash hcontrol) (ih h)
  exact hchars s.toList h

/-! ## Numbers -/

/-- At least one digit. -/
def Digits (s : List Char) : Prop := s ≠ [] ∧ ∀ c ∈ s, c.isDigit = true

/-- The point and the digits after it, if there are any. -/
def fractionChars : List Char → List Char
  | [] => []
  | c :: ds => '.' :: c :: ds

inductive SpellsExponent : Option (Bool × List Char) → List Char → Prop
  | none : SpellsExponent none []
  | some {letter : Char} {negative : Bool} {sign digits : List Char}
      (letter_eq : letter = 'e' ∨ letter = 'E')
      (sign_eq : if negative then sign = ['-'] else sign = [] ∨ sign = ['+'])
      (digits_ok : Digits digits) :
      SpellsExponent (some (negative, digits)) (letter :: (sign ++ digits))

/-- The texts of a number: no zero in front of other digits, and no plus in front of all. -/
inductive Numeral.Spells : Numeral → List Char → Prop
  | intro {n : Numeral} {exponent : List Char} (whole : Digits n.whole)
      (zero : n.whole = ['0'] ∨ n.whole.head? ≠ some '0')
      (fraction : ∀ c ∈ n.fraction, c.isDigit = true)
      (exponent_ok : SpellsExponent n.exponent exponent) :
      Spells n ((if n.negative then ['-'] else []) ++ (n.whole ++
        (fractionChars n.fraction ++ exponent)))

/-! ## Values -/

/-- The parts of a value. -/
inductive Tree where
  | null
  | bool (b : Bool)
  | number (n : Numeral)
  | text (pieces : List Piece)
  | list (items : List Tree)
  | object (members : List (List Piece × Tree))

/-- Something between commas, with blanks on both sides. -/
structure Part (β : Type) where
  before : List Char
  content : β
  after : List Char

/-- An item of a list with its text. -/
structure Item where
  tree : Tree
  text : List Char

/-- A member of an object with its texts, and blanks around the colon. -/
structure Member where
  pieces : List Piece
  name : List Char
  middle : List Char
  behind : List Char
  tree : Tree
  text : List Char

structure Part.Blank {β : Type} (p : Part β) : Prop where
  before : Blanks p.before
  after : Blanks p.after

def Part.chars {β : Type} (text : β → List Char) (p : Part β) : List Char :=
  p.before ++ (text p.content ++ p.after)

def Member.chars (m : Member) : List Char :=
  '"' :: (m.name ++ '"' :: (m.middle ++ ':' :: (m.behind ++ m.text)))

/-- The texts that have these parts, without blanks around them. -/
inductive Tree.Spells : Tree → List Char → Prop
  | null : Spells .null ['n', 'u', 'l', 'l']
  | bool (b : Bool) : Spells (.bool b) (boolChars b)
  | number {n : Numeral} {s : List Char} (h : n.Spells s) : Spells (.number n) s
  | text {ps : List Piece} {s : List Char} (h : SpellsPieces ps s) :
      Spells (.text ps) ('"' :: (s ++ ['"']))
  | noItems {gap : List Char} (h : Blanks gap) : Spells (.list []) ('[' :: (gap ++ [']']))
  | items {parts : List (Part Item)} (some : parts ≠ []) (blank : ∀ p ∈ parts, p.Blank)
      (h : ∀ p ∈ parts, Spells p.content.tree p.content.text) :
      Spells (.list (parts.map (·.content.tree)))
        ('[' :: (commaSeparated (parts.map (Part.chars Item.text)) ++ [']']))
  | noMembers {gap : List Char} (h : Blanks gap) :
      Spells (.object []) ('\x7b' :: (gap ++ ['\x7d']))
  | members {parts : List (Part Member)} (some : parts ≠ []) (blank : ∀ p ∈ parts, p.Blank)
      (names : ∀ p ∈ parts, SpellsPieces p.content.pieces p.content.name)
      (colons : ∀ p ∈ parts, Blanks p.content.middle ∧ Blanks p.content.behind)
      (h : ∀ p ∈ parts, Spells p.content.tree p.content.text) :
      Spells (.object (parts.map fun p => (p.content.pieces, p.content.tree)))
        ('\x7b' :: (commaSeparated (parts.map (Part.chars Member.chars)) ++ ['\x7d']))

/-- The text has these parts, and nothing but blanks around them. -/
def IsDocument (source : String) (tree : Tree) : Prop :=
  ∃ before s after, Blanks before ∧ Blanks after ∧ tree.Spells s ∧
    source.toList = before ++ (s ++ after)

/-! ## Texts without blanks and escapes -/

def plainText (s : String) : Item := ⟨.text (plain s), '"' :: (s.toList ++ ['"'])⟩

def plainList (items : List Item) : Item :=
  ⟨.list (items.map Item.tree), '[' :: (commaSeparated (items.map Item.text) ++ [']'])⟩

def plainMembers (fields : List (String × Item)) : List (List Piece × Tree) :=
  fields.map fun f => (plain f.1, f.2.tree)

def plainObject (fields : List (String × Item)) : Item :=
  ⟨.object (plainMembers fields), '\x7b' :: (commaSeparated
    (fields.map fun f => '"' :: (f.1.toList ++ '"' :: ':' :: f.2.text)) ++ ['\x7d'])⟩

def Item.Spelled (i : Item) : Prop := i.tree.Spells i.text

theorem spelled_plainText {s : String} (h : s.toList.all isPlain = true) :
    (plainText s).Spelled :=
  .text (spells_plain h)

theorem spelled_plainList {items : List Item} (h : ∀ i ∈ items, i.Spelled) :
    (plainList items).Spelled := by
  cases items with
  | nil => exact .noItems blanks_nil
  | cons i items =>
    let part (i : Item) : Part Item := ⟨[], i, []⟩
    have hsome : (i :: items).map part ≠ [] := by simp
    have hparts := Tree.Spells.items hsome
      (List.forall_mem_map.mpr fun _ _ => ⟨blanks_nil, blanks_nil⟩) (List.forall_mem_map.mpr h)
    simpa [Item.Spelled, plainList, part, Part.chars, Function.comp_def] using hparts

theorem spelled_plainObject {fields : List (String × Item)}
    (hnames : ∀ f ∈ fields, f.1.toList.all isPlain = true) (h : ∀ f ∈ fields, f.2.Spelled) :
    (plainObject fields).Spelled := by
  cases fields with
  | nil => exact .noMembers blanks_nil
  | cons f fields =>
    let part (f : String × Item) : Part Member :=
      ⟨[], ⟨plain f.1, f.1.toList, [], [], f.2.tree, f.2.text⟩, []⟩
    have hsome : (f :: fields).map part ≠ [] := by simp
    have hparts := Tree.Spells.members hsome
      (List.forall_mem_map.mpr fun _ _ => ⟨blanks_nil, blanks_nil⟩)
      (List.forall_mem_map.mpr fun f hf => spells_plain (hnames f hf))
      (List.forall_mem_map.mpr fun _ _ => ⟨blanks_nil, blanks_nil⟩) (List.forall_mem_map.mpr h)
    simpa [Item.Spelled, plainObject, plainMembers, part, Part.chars, Member.chars,
      Function.comp_def] using hparts

theorem isDocument_ofList {i : Item} (h : i.Spelled) : IsDocument (.ofList i.text) i.tree :=
  ⟨[], i.text, [], blanks_nil, blanks_nil, h, by simp⟩

/-! ## What a tree may lack -/

namespace Tree

/-- Trees are made of smaller trees. -/
@[induction_eliminator]
theorem induction {P : Tree → Prop} (null : P .null) (bool : ∀ b, P (.bool b))
    (number : ∀ n, P (.number n)) (text : ∀ ps, P (.text ps))
    (list : ∀ items, (∀ t ∈ items, P t) → P (.list items))
    (object : ∀ members, (∀ e ∈ members, P e.2) → P (.object members)) (t : Tree) : P t :=
  match t with
  | .null => null
  | .bool b => bool b
  | .number n => number n
  | .text ps => text ps
  | .list items =>
    list items fun t ht =>
      have : sizeOf t < sizeOf items := List.sizeOf_lt_of_mem ht
      induction null bool number text list object t
  | .object members =>
    object members fun e he =>
      have hlt : sizeOf e < sizeOf members := List.sizeOf_lt_of_mem he
      have : sizeOf e.2 < sizeOf members := by
        obtain ⟨ps, t⟩ := e
        simp only [Prod.mk.sizeOf_spec] at hlt ⊢
        omega
      induction null bool number text list object e.2
termination_by sizeOf t

/-- No half of a pair of units is missing in a string or a name. -/
inductive Paired : Tree → Prop
  | null : Paired .null
  | bool (b : Bool) : Paired (.bool b)
  | number (n : Numeral) : Paired (.number n)
  | text {ps : List Piece} (h : decode ps ≠ none) : Paired (.text ps)
  | list {items : List Tree} (h : ∀ t ∈ items, Paired t) : Paired (.list items)
  | object {members : List (List Piece × Tree)} (names : ∀ e ∈ members, decode e.1 ≠ none)
      (h : ∀ e ∈ members, Paired e.2) : Paired (.object members)

/-- No number is too great. -/
inductive InRange : Tree → Prop
  | null : InRange .null
  | bool (b : Bool) : InRange (.bool b)
  | number {n : Numeral} (h : n.value? ≠ none) : InRange (.number n)
  | text (ps : List Piece) : InRange (.text ps)
  | list {items : List Tree} (h : ∀ t ∈ items, InRange t) : InRange (.list items)
  | object {members : List (List Piece × Tree)} (h : ∀ e ∈ members, InRange e.2) :
      InRange (.object members)

/-- At most `room` lists and objects are open at the same time. -/
inductive Within : Nat → Tree → Prop
  | null {room : Nat} : Within room .null
  | bool {room : Nat} (b : Bool) : Within room (.bool b)
  | number {room : Nat} (n : Numeral) : Within room (.number n)
  | text {room : Nat} (ps : List Piece) : Within room (.text ps)
  | list {room : Nat} {items : List Tree} (h : ∀ t ∈ items, Within room t) :
      Within (room + 1) (.list items)
  | object {room : Nat} {members : List (List Piece × Tree)}
      (h : ∀ e ∈ members, Within room e.2) : Within (room + 1) (.object members)

theorem within_list_iff {room : Nat} {items : List Tree} :
    Within room (.list items) ↔ ∃ n, room = n + 1 ∧ ∀ t ∈ items, Within n t := by
  constructor
  · intro h
    cases h with
    | list h => exact ⟨_, rfl, h⟩
  · rintro ⟨n, rfl, h⟩
    exact .list h

theorem within_object_iff {room : Nat} {members : List (List Piece × Tree)} :
    Within room (.object members) ↔ ∃ n, room = n + 1 ∧ ∀ e ∈ members, Within n e.2 := by
  constructor
  · intro h
    cases h with
    | object h => exact ⟨_, rfl, h⟩
  · rintro ⟨n, rfl, h⟩
    exact .object h

/-! ## The value of a tree -/

mutual

/-- The value that the parts stand for. -/
def value? : Tree → Option Value
  | .null => some .null
  | .bool b => some (.bool b)
  | .number n => n.value?.map .number
  | .text ps => (stringOf? ps).map .text
  | .list items => (values? items).map .list
  | .object members => (members? members).map .object

def values? : List Tree → Option (List Value)
  | [] => some []
  | t :: ts => do return (← t.value?) :: (← values? ts)

def members? : List (List Piece × Tree) → Option (List (String × Value))
  | [] => some []
  | (ps, t) :: ms => do return (← stringOf? ps, ← t.value?) :: (← members? ms)

end

theorem values?_eq_some_iff {ts : List Tree} {vs : List Value} :
    values? ts = some vs ↔ List.Forall₂ (fun t v => t.value? = some v) ts vs := by
  induction ts generalizing vs with
  | nil => simp [values?, eq_comm]
  | cons t ts ih =>
    cases vs with
    | nil => simp [values?, Option.bind_eq_some_iff]
    | cons v vs => simp [values?, Option.bind_eq_some_iff, ih]

/-- A member has the name and the value of its parts. -/
def IsMember (m : List Piece × Tree) (e : String × Value) : Prop :=
  stringOf? m.1 = some e.1 ∧ m.2.value? = some e.2

theorem members?_eq_some_iff {ms : List (List Piece × Tree)} {es : List (String × Value)} :
    members? ms = some es ↔ List.Forall₂ IsMember ms es := by
  induction ms generalizing es with
  | nil => simp [members?, eq_comm]
  | cons m ms ih =>
    obtain ⟨ps, t⟩ := m
    cases es with
    | nil => simp [members?, Option.bind_eq_some_iff]
    | cons e es =>
      obtain ⟨name, v⟩ := e
      simp [members?, Option.bind_eq_some_iff, ih, IsMember, and_assoc]

theorem value?_eq_null_iff {t : Tree} : t.value? = some .null ↔ t = .null := by
  cases t <;> simp [value?]

theorem value?_eq_text_iff {t : Tree} {s : String} :
    t.value? = some (.text s) ↔ ∃ ps, t = .text ps ∧ stringOf? ps = some s := by
  cases t <;> simp [value?]

theorem value?_eq_list_iff {t : Tree} {vs : List Value} :
    t.value? = some (.list vs) ↔
      ∃ items, t = .list items ∧ List.Forall₂ (fun t v => t.value? = some v) items vs := by
  cases t <;> simp [value?, values?_eq_some_iff]

theorem value?_eq_object_iff {t : Tree} {es : List (String × Value)} :
    t.value? = some (.object es) ↔
      ∃ members, t = .object members ∧ List.Forall₂ IsMember members es := by
  cases t <;> simp [value?, members?_eq_some_iff]

theorem values?_ne_none_iff {ts : List Tree} :
    values? ts ≠ none ↔ ∀ t ∈ ts, t.value? ≠ none := by
  induction ts with
  | nil => simp [values?]
  | cons t ts ih =>
    rw [List.forall_mem_cons, ← ih, values?]
    cases t.value? <;> cases values? ts <;> simp

theorem members?_ne_none_iff {ms : List (List Piece × Tree)} :
    members? ms ≠ none ↔ ∀ m ∈ ms, decode m.1 ≠ none ∧ m.2.value? ≠ none := by
  induction ms with
  | nil => simp [members?]
  | cons m ms ih =>
    obtain ⟨ps, t⟩ := m
    rw [List.forall_mem_cons, ← ih, members?, stringOf?]
    cases decode ps <;> cases t.value? <;> cases members? ms <;> simp

/-- **A tree has a value** if its units are paired and its numbers are not too great. -/
theorem value?_ne_none_iff {t : Tree} : t.value? ≠ none ↔ t.Paired ∧ t.InRange := by
  induction t with
  | null => exact ⟨fun _ => ⟨.null, .null⟩, fun _ => nofun⟩
  | bool b => exact ⟨fun _ => ⟨.bool b, .bool b⟩, fun _ => nofun⟩
  | number n =>
    have hvalue : (Tree.number n).value? ≠ none ↔ n.value? ≠ none := by simp [value?]
    rw [hvalue]
    constructor
    · intro h
      exact ⟨.number n, .number h⟩
    · rintro ⟨-, h⟩
      cases h with
      | number h => exact h
  | text ps =>
    have hvalue : (Tree.text ps).value? ≠ none ↔ decode ps ≠ none := by simp [value?, stringOf?]
    rw [hvalue]
    constructor
    · intro h
      exact ⟨.text h, .text ps⟩
    · rintro ⟨h, -⟩
      cases h with
      | text h => exact h
  | list items ih =>
    have hvalue : (Tree.list items).value? ≠ none ↔ ∀ t ∈ items, t.value? ≠ none := by
      rw [← values?_ne_none_iff]
      simp [value?]
    rw [hvalue]
    constructor
    · intro h
      exact ⟨.list fun t ht => ((ih t ht).mp (h t ht)).1,
        .list fun t ht => ((ih t ht).mp (h t ht)).2⟩
    · rintro ⟨hpaired, hrange⟩ t ht
      cases hpaired with
      | list hpaired =>
        cases hrange with
        | list hrange => exact (ih t ht).mpr ⟨hpaired t ht, hrange t ht⟩
  | object members ih =>
    have hvalue : (Tree.object members).value? ≠ none ↔
        ∀ m ∈ members, decode m.1 ≠ none ∧ m.2.value? ≠ none := by
      rw [← members?_ne_none_iff]
      simp [value?]
    rw [hvalue]
    constructor
    · intro h
      exact ⟨.object (fun m hm => (h m hm).1) fun m hm => ((ih m hm).mp (h m hm).2).1,
        .object fun m hm => ((ih m hm).mp (h m hm).2).2⟩
    · rintro ⟨hpaired, hrange⟩ m hm
      cases hpaired with
      | object hnames hpaired =>
        cases hrange with
        | object hrange =>
          exact ⟨hnames m hm, (ih m hm).mpr ⟨hpaired m hm, hrange m hm⟩⟩

theorem exists_object_value_iff {members : List (List Piece × Tree)} :
    (∃ es, (object members).value? = some (.object es)) ↔
      (object members).Paired ∧ (object members).InRange := by
  rw [← value?_ne_none_iff, value?]
  cases members? members <;> simp

end Tree

end Transducers.Json
