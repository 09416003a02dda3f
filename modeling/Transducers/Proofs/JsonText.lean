import Transducers.Json.Document
import Transducers.Json.Printer

/-!
# Printed texts are read back

Whatever the printers write, without space or with lines, the readers take off the front
of a text, and leave what follows.

* `Takes`: a reader takes a value off the front of a text;
* `readChars_escapeChar`, `readString_stringChars`: characters and strings;
* `Gaps`, `Spelled`: blanks between the parts of a value, and the texts that spell it;
* `Reads`: a reader makes something of every text that spells a value;
* `elements_between`: the items of a list;
* `Passes`, `Passes.foldMembers`: the members of an object, whatever is made of them;
* `Value.Fits`: values without numbers, nested so deep at most;
* `spelled_compactChars`, `spelled_prettyChars`: both printers spell such a value;
* `reads_readValue`: every such value is read back.
-/

namespace Transducers.Json

/-- The reader takes `x` off the front of the text and leaves `rest`. -/
def Takes {α : Type} (read : Reader α) (s : List Char) (x : α) (rest : List Char) : Prop :=
  ∃ h, read s = .ok (x, ⟨rest, h⟩)

theorem readAll_of_takes {α : Type} {read : Reader α} {s : String} {x : α}
    (h : Takes read s.toList x []) : readAll read s = .ok x := by
  obtain ⟨hlt, hread⟩ := h
  rw [readAll, hread]
  rfl

/-! ## Strings -/

theorem hexValue?_digitChar : ∀ d < 16, hexValue? (Nat.digitChar d) = some d := by decide

theorem hexValue?_hexDigit (n : Nat) : hexValue? (hexDigit n) = some (n % 16) :=
  hexValue?_digitChar _ (Nat.mod_lt n (by decide))

theorem readEscape_short {e c : Char} (h : escaped? e = some c) (rest : List Char) :
    Takes readEscape (e :: rest) c rest := by
  refine ⟨length_lt_cons e rest, ?_⟩
  rw [readEscape]
  split
  · rename_i x hx
    rw [h, Option.some.injEq] at hx
    rw [hx]
  · rename_i hx
    rw [h] at hx
    cases hx

/-- A control character by its number. -/
theorem readEscape_control {c : Char} (hc : c.toNat < 32) (rest : List Char) :
    Takes readEscape ('u' :: '0' :: '0' :: hexDigit (c.toNat / 16) :: hexDigit c.toNat :: rest)
      c rest := by
  have hnumber : ((0 * 16 + 0) * 16 + c.toNat / 16 % 16) * 16 + c.toNat % 16 = c.toNat := by omega
  have hlead : isLeadSurrogate c.toNat = false := by
    simp only [isLeadSurrogate, Bool.and_eq_false_iff, decide_eq_false_iff_not]
    omega
  have htrail : isTrailSurrogate c.toNat = false := by
    simp only [isTrailSurrogate, Bool.and_eq_false_iff, decide_eq_false_iff_not]
    omega
  have hzero : hexValue? '0' = some 0 := by decide
  have hhex : readHex4 ('0' :: '0' :: hexDigit (c.toNat / 16) :: hexDigit c.toNat :: rest) =
      .ok (c.toNat, ⟨rest, by simp only [List.length_cons]; omega⟩) := by
    simp only [readHex4, hzero, hexValue?_hexDigit, hnumber]
  refine ⟨by simp only [List.length_cons]; omega, ?_⟩
  have hu : escaped? 'u' = none := by decide
  simp only [readEscape, hu, hhex, bind, Except.bind, hlead, htrail, Char.ofNat_toNat]
  rfl

theorem readChars_quote (rest : List Char) : Takes readChars ('"' :: rest) [] rest :=
  ⟨length_lt_cons _ rest, by rw [readChars]; rfl⟩

/-- An escape adds the character for which it stands. -/
theorem readChars_escape {s t u : List Char} {e : Char} {cs : List Char}
    (he : Takes readEscape s e t) (hcs : Takes readChars t cs u) :
    Takes readChars ('\\' :: s) (e :: cs) u := by
  obtain ⟨ht, he⟩ := he
  obtain ⟨hu, hcs⟩ := hcs
  refine ⟨length_lt_cons_of_lt _ (length_lt_trans ht hu), ?_⟩
  rw [readChars]
  simp only [he, hcs, bind, Except.bind]
  rfl

theorem readChars_plain {c : Char} (hquote : c ≠ '"') (hslash : c ≠ '\\')
    (hplain : ¬ c.toNat < 32) {s t cs : List Char} (h : Takes readChars s cs t) :
    Takes readChars (c :: s) (c :: cs) t := by
  obtain ⟨ht, h⟩ := h
  refine ⟨length_lt_cons_of_lt c ht, ?_⟩
  rw [readChars]
  simp only [if_neg hquote, if_neg hslash, if_neg hplain, h, bind, Except.bind]
  rfl

/-- A character is escaped by a letter or by its number, or stands for itself. -/
theorem escapeChar_cases (c : Char) :
    (∃ e, escaped? e = some c ∧ escapeChar c = ['\\', e]) ∨
    (c.toNat < 32 ∧ escapeChar c =
      ['\\', 'u', '0', '0', hexDigit (c.toNat / 16), hexDigit c.toNat]) ∨
    (c ≠ '"' ∧ c ≠ '\\' ∧ ¬ c.toNat < 32 ∧ escapeChar c = [c]) := by
  unfold escapeChar
  split
  case h_8 hquote hslash _ _ _ _ _ =>
    by_cases hcontrol : c.toNat < 32
    · exact Or.inr (Or.inl ⟨hcontrol, if_pos hcontrol⟩)
    · exact Or.inr (Or.inr ⟨hquote, hslash, hcontrol, if_neg hcontrol⟩)
  all_goals exact Or.inl ⟨_, by decide, rfl⟩

/-- **One character.**  It is read as itself, escaped or not. -/
theorem readChars_escapeChar (c : Char) {s t cs : List Char} (h : Takes readChars s cs t) :
    Takes readChars (escapeChar c ++ s) (c :: cs) t := by
  rcases escapeChar_cases c with ⟨e, he, hc⟩ | ⟨hcontrol, hc⟩ | ⟨hquote, hslash, hplain, hc⟩
  · rw [hc]
    exact readChars_escape (readEscape_short he s) h
  · rw [hc]
    exact readChars_escape (readEscape_control hcontrol s) h
  · rw [hc, List.singleton_append]
    exact readChars_plain hquote hslash hplain h

theorem readChars_flatMap_escapeChar (cs rest : List Char) :
    Takes readChars (cs.flatMap escapeChar ++ '"' :: rest) cs rest := by
  induction cs with
  | nil => exact readChars_quote rest
  | cons c cs ih =>
    rw [List.flatMap_cons, List.append_assoc]
    exact readChars_escapeChar c ih

theorem stringChars_append (s : String) (rest : List Char) :
    stringChars s ++ rest = '"' :: (s.toList.flatMap escapeChar ++ '"' :: rest) := by
  simp [stringChars]

/-- **Strings.** -/
theorem readString_stringChars (s : String) (rest : List Char) :
    Takes readString (stringChars s ++ rest) s rest := by
  obtain ⟨hlt, h⟩ := readChars_flatMap_escapeChar s.toList rest
  rw [stringChars_append]
  refine ⟨length_lt_cons_of_lt _ hlt, ?_⟩
  simp only [readString, h, bind, Except.bind, String.ofList_toList]
  rfl

/-! ## Blanks -/

/-- The text has nothing but blanks. -/
def Blanks (gap : List Char) : Prop := ∀ c ∈ gap, isBlank c = true

theorem blanks_nil : Blanks [] := by simp [Blanks]

theorem blanks_newLine (level : Nat) : Blanks (Value.newLine level) := by
  intro c hc
  rcases List.mem_cons.mp hc with rfl | hc
  · decide
  · rw [List.eq_of_mem_replicate hc]
    decide

theorem skipBlanks_cons {c : Char} (h : isBlank c = false) (r : List Char) :
    skipBlanks (c :: r) = ⟨c :: r, Nat.le_refl _⟩ :=
  Subtype.ext (List.dropWhile_cons_of_neg (by simp [h]))

theorem skipBlanks_gap {gap : List Char} (hgap : Blanks gap) {c : Char} (h : isBlank c = false)
    (r : List Char) :
    skipBlanks (gap ++ c :: r) = ⟨c :: r, by simp only [List.length_append]; omega⟩ := by
  have hdrop : (gap ++ c :: r).dropWhile isBlank = c :: r := by
    rw [List.dropWhile_append_of_pos hgap, List.dropWhile_cons_of_neg (by simp [h])]
  exact Subtype.ext hdrop

/-! ## Fronts of values -/

section Head

variable {gap : List Char} (hgap : Blanks gap)
include hgap

theorem readHead_list (rest : List Char) : Takes readHead (gap ++ '[' :: rest) .list rest :=
  ⟨by simp only [List.length_append, List.length_cons]; omega, by
    rw [readHead, skipBlanks_gap hgap (by decide)]
    rfl⟩

theorem readHead_object (rest : List Char) : Takes readHead (gap ++ '\x7b' :: rest) .object rest :=
  ⟨by simp only [List.length_append, List.length_cons]; omega, by
    rw [readHead, skipBlanks_gap hgap (by decide)]
    rfl⟩

theorem readHead_null (rest : List Char) :
    Takes readHead (gap ++ 'n' :: 'u' :: 'l' :: 'l' :: rest) .null rest :=
  ⟨by simp only [List.length_append, List.length_cons]; omega, by
    rw [readHead, skipBlanks_gap hgap (by decide)]
    rfl⟩

theorem readHead_bool (b : Bool) (rest : List Char) :
    Takes readHead (gap ++ (boolChars b ++ rest)) (.bool b) rest := by
  cases b with
  | false =>
    change Takes readHead (gap ++ 'f' :: 'a' :: 'l' :: 's' :: 'e' :: rest) (.bool false) rest
    refine ⟨by simp only [List.length_append, List.length_cons]; omega, ?_⟩
    rw [readHead, skipBlanks_gap hgap (by decide)]
    rfl
  | true =>
    change Takes readHead (gap ++ 't' :: 'r' :: 'u' :: 'e' :: rest) (.bool true) rest
    refine ⟨by simp only [List.length_append, List.length_cons]; omega, ?_⟩
    rw [readHead, skipBlanks_gap hgap (by decide)]
    rfl

theorem readHead_text (s : String) (rest : List Char) :
    Takes readHead (gap ++ (stringChars s ++ rest)) (.text s) rest := by
  obtain ⟨hlt, h⟩ := readChars_flatMap_escapeChar s.toList rest
  rw [stringChars_append]
  refine ⟨by simp only [List.length_append, List.length_cons] at hlt ⊢; omega, ?_⟩
  rw [readHead, skipBlanks_gap hgap (by decide)]
  simp only [h, bind, Except.bind, String.ofList_toList]
  rfl

end Head

/-! ## Items between brackets -/

/-- The text begins with what can only be an item. -/
def Begins (closing : Char) (s : List Char) : Prop :=
  ∃ c r, s = c :: r ∧ isBlank c = false ∧ c ≠ closing

theorem Begins.append {closing : Char} {s : List Char} (h : Begins closing s) (t : List Char) :
    Begins closing (s ++ t) := by
  obtain ⟨c, r, rfl, hblank, hclosing⟩ := h
  exact ⟨c, r ++ t, rfl, hblank, hclosing⟩

section Next

variable {closing : Char} {gap : List Char} (hgap : Blanks gap)
include hgap

theorem next_close (hblank : isBlank closing = false) (first : Bool) (rest : List Char) :
    ∃ h, next closing first (gap ++ closing :: rest) = .ok (.close ⟨rest, h⟩) := by
  refine ⟨by simp only [List.length_append, List.length_cons]; omega, ?_⟩
  rw [next, skipBlanks_gap hgap hblank]
  simp

theorem next_first {s : List Char} (h : Begins closing s) :
    ∃ h, next closing true (gap ++ s) = .ok (.item ⟨s, h⟩) := by
  obtain ⟨c, r, rfl, hblank, hclosing⟩ := h
  refine ⟨by simp only [List.length_append]; omega, ?_⟩
  rw [next, skipBlanks_gap hgap hblank]
  simp [hclosing]

theorem next_comma (hcomma : closing ≠ ',') {s : List Char} (h : Begins closing s) :
    ∃ h, next closing false (',' :: (gap ++ s)) = .ok (.item ⟨s, h⟩) := by
  obtain ⟨c, r, rfl, hblank, hclosing⟩ := h
  refine ⟨by simp only [List.length_append, List.length_cons]; omega, ?_⟩
  rw [next, skipBlanks_cons (by decide)]
  simp [hcomma.symm, hclosing, skipBlanks_gap hgap hblank]

end Next

theorem commaSeparated_cons (x : List Char) (xs : List (List Char)) :
    commaSeparated (x :: xs) = x ++ xs.flatMap (',' :: ·) := by
  induction xs generalizing x with
  | nil => simp [commaSeparated]
  | cons y ys ih => rw [commaSeparated, ih, List.flatMap_cons, List.cons_append]

/-- The blanks in a list or an object: before each item, before the closing bracket, and
after each colon. -/
structure Gaps where
  item : List Char
  close : List Char
  colon : List Char
  blanks_item : Blanks item
  blanks_close : Blanks close
  blanks_colon : Blanks colon

namespace Gaps

/-- No blanks at all. -/
def none : Gaps := ⟨[], [], [], blanks_nil, blanks_nil, blanks_nil⟩

/-- Each item on a line of its own, and the closing bracket on one a level higher. -/
def lines (level : Nat) : Gaps where
  item := Value.newLine (level + 1)
  close := Value.newLine level
  colon := [' ']
  blanks_item := blanks_newLine _
  blanks_close := blanks_newLine level
  blanks_colon := by simp [Blanks, isBlank]

/-- What stands between the brackets; nothing if there are no items. -/
def between (gaps : Gaps) : List (List Char) → List Char
  | [] => []
  | items => commaSeparated (items.map (gaps.item ++ ·)) ++ gaps.close

/-- A member of an object whose value is spelled in some way. -/
def member (gaps : Gaps) (spell : Value → List Char) (e : String × Value) : List Char :=
  stringChars e.1 ++ ':' :: (gaps.colon ++ spell e.2)

/-- The items after some item, and the blanks before the closing bracket. -/
def after (gaps : Gaps) (items : List (List Char)) : List Char :=
  items.flatMap (fun item => ',' :: (gaps.item ++ item)) ++ gaps.close

theorem between_cons (gaps : Gaps) (item : List Char) (items : List (List Char)) :
    gaps.between (item :: items) = gaps.item ++ (item ++ gaps.after items) := by
  rw [between, List.map_cons, commaSeparated_cons, List.flatMap_map, after]
  · simp
  · simp

theorem after_cons (gaps : Gaps) (item : List Char) (items : List (List Char)) :
    gaps.after (item :: items) = ',' :: (gaps.item ++ (item ++ gaps.after items)) := by
  simp [after]

theorem between_none (items : List (List Char)) :
    Gaps.none.between items = commaSeparated items := by
  cases items <;> simp [between, none, commaSeparated]

theorem bracketed_eq (level : Nat) (opening closing : Char) (items : List (List Char)) :
    Value.bracketed level opening closing items =
      opening :: ((lines level).between items ++ [closing]) := by
  cases items <;> simp [Value.bracketed, between, lines]

end Gaps

/-- The text spells the value, with blanks between its parts; no text spells a number. -/
inductive Spelled : Value → List Char → Prop
  | null : Spelled .null ['n', 'u', 'l', 'l']
  | bool (b : Bool) : Spelled (.bool b) (boolChars b)
  | text (s : String) : Spelled (.text s) (stringChars s)
  | list (gaps : Gaps) {items : List Value} {spell : Value → List Char}
      (h : ∀ v ∈ items, Spelled v (spell v)) :
      Spelled (.list items) ('[' :: (gaps.between (items.map spell) ++ [']']))
  | object (gaps : Gaps) {members : List (String × Value)} {spell : Value → List Char}
      (h : ∀ e ∈ members, Spelled e.2 (spell e.2)) :
      Spelled (.object members)
        ('\x7b' :: (gaps.between (members.map (gaps.member spell)) ++ ['\x7d']))

theorem Spelled.begins {v : Value} {s : List Char} (h : Spelled v s) : Begins ']' s := by
  cases h with
  | null => exact ⟨'n', _, rfl, by decide, by decide⟩
  | bool b => cases b <;> exact ⟨_, _, rfl, by decide, by decide⟩
  | text s => exact ⟨'"', _, rfl, by decide, by decide⟩
  | list _ _ => exact ⟨'[', _, rfl, by decide, by decide⟩
  | object _ _ => exact ⟨'\x7b', _, rfl, by decide, by decide⟩

/-- The reader makes `x` of every text that spells the value, behind blanks or not. -/
def Reads {α : Type} (read : Reader α) (v : Value) (x : α) : Prop :=
  ∀ s, Spelled v s → ∀ gap, Blanks gap → ∀ rest, Takes read (gap ++ (s ++ rest)) x rest

theorem Reads.takes {α : Type} {read : Reader α} {v : Value} {x : α} (h : Reads read v x)
    {s : List Char} (hs : Spelled v s) (rest : List Char) : Takes read (s ++ rest) x rest :=
  h s hs [] blanks_nil rest

theorem readAll_of_reads {α : Type} {read : Reader α} {v : Value} {x : α} (h : Reads read v x)
    {s : String} (hs : Spelled v s.toList) : readAll read s = .ok x := by
  have htakes := h.takes hs []
  rw [List.append_nil] at htakes
  exact readAll_of_takes htakes

/-! ## Lists -/

section Elements

variable {α : Type} {item : Reader α}

theorem elements_close {gap : List Char} (hgap : Blanks gap) (first : Bool) (rest : List Char) :
    Takes (elements item first) (gap ++ ']' :: rest) [] rest := by
  obtain ⟨hlt, hnext⟩ : ∃ h, next ']' first (gap ++ ']' :: rest) = .ok (.close ⟨rest, h⟩) :=
    next_close hgap (by decide) first rest
  refine ⟨hlt, ?_⟩
  rw [elements, hnext]
  rfl

theorem elements_item {first : Bool} {s t u v : List Char} {x : α} {xs : List α}
    (hn : ∃ h, next ']' first s = .ok (.item ⟨t, h⟩)) (hx : Takes item t x u)
    (hxs : Takes (elements item false) u xs v) : Takes (elements item first) s (x :: xs) v := by
  obtain ⟨ht, hn⟩ := hn
  obtain ⟨hu, hx⟩ := hx
  obtain ⟨hv, hxs⟩ := hxs
  refine ⟨by omega, ?_⟩
  rw [elements, hn]
  simp only [bind, Except.bind, hx, hxs]
  rfl

variable (gaps : Gaps) {print : α → List Char} {xs : List α}
  (hbegins : ∀ x ∈ xs, Begins ']' (print x))
  (hitem : ∀ x ∈ xs, ∀ rest, Takes item (print x ++ rest) x rest)
include hbegins hitem

/-- Items that follow another, each after a comma. -/
theorem elements_after (rest : List Char) : Takes (elements item false)
    (gaps.after (xs.map print) ++ ']' :: rest) xs rest := by
  induction xs with
  | nil => exact elements_close gaps.blanks_close false rest
  | cons x xs ih =>
    rw [List.forall_mem_cons] at hbegins hitem
    rw [List.map_cons, gaps.after_cons, List.cons_append, List.append_assoc, List.append_assoc]
    refine elements_item (next_comma gaps.blanks_item (by decide) (hbegins.1.append _))
      (hitem.1 _) ?_
    exact ih hbegins.2 hitem.2

/-- **A list.** -/
theorem elements_between (rest : List Char) : Takes (elements item true)
    (gaps.between (xs.map print) ++ ']' :: rest) xs rest := by
  cases xs with
  | nil => exact elements_close blanks_nil true rest
  | cons x xs =>
    rw [List.forall_mem_cons] at hbegins hitem
    rw [List.map_cons, gaps.between_cons, List.append_assoc, List.append_assoc]
    refine elements_item (next_first gaps.blanks_item (hbegins.1.append _)) (hitem.1 _) ?_
    exact elements_after gaps hbegins.2 hitem.2 rest

end Elements

/-! ## Objects -/

theorem Gaps.member_append (gaps : Gaps) (spell : Value → List Char) (e : String × Value)
    (s : List Char) : gaps.member spell e ++ s =
      stringChars e.1 ++ ':' :: (gaps.colon ++ (spell e.2 ++ s)) := by
  rw [member, List.append_assoc, List.cons_append, List.append_assoc]

theorem Gaps.begins_member (gaps : Gaps) (spell : Value → List Char) (e : String × Value) :
    Begins '\x7d' (gaps.member spell e) :=
  ⟨'"', _, rfl, by decide, by decide⟩

section Members

variable {σ : Type} {member : σ → String → Except Mismatch (Reader σ)}

/-- From what is known, these members lead to what is known in the end, whichever way
their values are spelled. -/
inductive Passes (member : σ → String → Except Mismatch (Reader σ)) :
    σ → List (String × Value) → σ → Prop
  | nil {known : σ} : Passes member known [] known
  | cons {known next last : σ} {name : String} {v : Value} {es : List (String × Value)}
      {value : Reader σ} (accepted : member known name = .ok value) (taken : Reads value v next)
      (others : Passes member next es last) : Passes member known ((name, v) :: es) last

theorem foldMembers_close {gap : List Char} (hgap : Blanks gap) (first : Bool) (known : σ)
    (rest : List Char) :
    Takes (foldMembers readString member first known) (gap ++ '\x7d' :: rest) known rest := by
  obtain ⟨hlt, hnext⟩ : ∃ h, next '\x7d' first (gap ++ '\x7d' :: rest) = .ok (.close ⟨rest, h⟩) :=
    next_close hgap (by decide) first rest
  refine ⟨hlt, ?_⟩
  rw [foldMembers, hnext]
  rfl

theorem readColon_cons (rest : List Char) : Takes readColon (':' :: rest) () rest := by
  refine ⟨length_lt_cons _ rest, ?_⟩
  rw [readColon, skipBlanks_cons (by decide)]
  rfl

theorem foldMembers_item {first : Bool} {known known' last : σ} {name : String}
    {value : Reader σ} {s t u v w rest : List Char}
    (hn : ∃ h, next '\x7d' first s = .ok (.item ⟨t, h⟩)) (hname : Takes readString t name u)
    (hmember : member known name = .ok value) (hcolon : Takes readColon u () v)
    (hvalue : Takes value v known' w)
    (hlast : Takes (foldMembers readString member false known') w last rest) :
    Takes (foldMembers readString member first known) s last rest := by
  obtain ⟨h₁, hn⟩ := hn
  obtain ⟨h₂, hname⟩ := hname
  obtain ⟨h₃, hcolon⟩ := hcolon
  obtain ⟨h₄, hvalue⟩ := hvalue
  obtain ⟨h₅, hlast⟩ := hlast
  have haccepted : (member known name).mapError Fault.mismatch = .ok value := by
    rw [hmember]
    rfl
  refine ⟨by omega, ?_⟩
  rw [foldMembers, hn]
  simp only [bind, Except.bind, hname, haccepted, hcolon, hvalue, hlast]
  rfl

variable (gaps : Gaps) {spell : Value → List Char}

theorem foldMembers_member {first : Bool} {known known' last : σ} {name : String} {v : Value}
    {value : Reader σ} {s t u : List Char} (hspell : Spelled v (spell v))
    (hn : ∃ h, next '\x7d' first s = .ok (.item ⟨gaps.member spell (name, v) ++ t, h⟩))
    (hmember : member known name = .ok value) (hvalue : Reads value v known')
    (hlast : Takes (foldMembers readString member false known') t last u) :
    Takes (foldMembers readString member first known) s last u := by
  simp only [gaps.member_append] at hn
  exact foldMembers_item hn (readString_stringChars name _) hmember (readColon_cons _)
    (hvalue _ hspell _ gaps.blanks_colon t) hlast

namespace Passes

variable {known last : σ} {es : List (String × Value)}

/-- Members that follow another, each after a comma. -/
theorem foldMembers_after (h : Passes member known es last)
    (hspell : ∀ e ∈ es, Spelled e.2 (spell e.2)) (rest : List Char) :
    Takes (foldMembers readString member false known)
      (gaps.after (es.map (gaps.member spell)) ++ '\x7d' :: rest) last rest := by
  induction h with
  | nil => exact foldMembers_close gaps.blanks_close false _ rest
  | @cons _ _ _ name v es _ accepted taken _ ih =>
    rw [List.forall_mem_cons] at hspell
    rw [List.map_cons, gaps.after_cons, List.cons_append, List.append_assoc, List.append_assoc]
    have hbegins := (gaps.begins_member spell (name, v)).append
      (gaps.after (es.map (gaps.member spell)) ++ '\x7d' :: rest)
    exact foldMembers_member gaps hspell.1 (next_comma gaps.blanks_item (by decide) hbegins)
      accepted taken (ih hspell.2)

/-- **An object.** -/
theorem foldMembers (h : Passes member known es last)
    (hspell : ∀ e ∈ es, Spelled e.2 (spell e.2)) (rest : List Char) :
    Takes (Json.foldMembers readString member true known)
      (gaps.between (es.map (gaps.member spell)) ++ '\x7d' :: rest) last rest := by
  cases h with
  | nil => exact foldMembers_close blanks_nil true _ rest
  | @cons _ _ _ name v es _ accepted taken others =>
    rw [List.forall_mem_cons] at hspell
    rw [List.map_cons, gaps.between_cons, List.append_assoc, List.append_assoc]
    have hbegins := (gaps.begins_member spell (name, v)).append
      (gaps.after (es.map (gaps.member spell)) ++ '\x7d' :: rest)
    exact foldMembers_member gaps hspell.1 (next_first gaps.blanks_item hbegins) accepted taken
      (others.foldMembers_after gaps hspell.2 rest)

end Passes

end Members

/-! ## Values -/

/-- A value without numbers in which at most `room` lists and objects are open at the
same time. -/
inductive Value.Fits : Nat → Value → Prop
  | null {room : Nat} : Fits room null
  | bool {room : Nat} (b : Bool) : Fits room (bool b)
  | text {room : Nat} (s : String) : Fits room (text s)
  | list {room : Nat} {items : List Value} (h : ∀ v ∈ items, Fits room v) :
      Fits (room + 1) (list items)
  | object {room : Nat} {members : List (String × Value)} (h : ∀ e ∈ members, Fits room e.2) :
      Fits (room + 1) (object members)

theorem compactItems_eq_map (items : List Value) :
    Value.compactItems items = items.map Value.compactChars := by
  induction items with
  | nil => rfl
  | cons v items ih => rw [Value.compactItems, ih, List.map_cons]

theorem compactMembers_eq_map (members : List (String × Value)) :
    Value.compactMembers members = members.map (Gaps.none.member Value.compactChars) := by
  induction members with
  | nil => rfl
  | cons e members ih =>
    rw [Value.compactMembers, ih, List.map_cons]
    rfl

theorem prettyItems_eq_map (level : Nat) (items : List Value) :
    Value.prettyItems level items = items.map (Value.prettyChars (level + 1)) := by
  induction items with
  | nil => rfl
  | cons v items ih => rw [Value.prettyItems, ih, List.map_cons]

theorem prettyMembers_eq_map (level : Nat) (members : List (String × Value)) :
    Value.prettyMembers level members =
      members.map ((Gaps.lines level).member (Value.prettyChars (level + 1))) := by
  induction members with
  | nil => rfl
  | cons e members ih =>
    rw [Value.prettyMembers, ih, List.map_cons]
    rfl

theorem spelled_compactChars {room : Nat} {v : Value} (h : v.Fits room) :
    Spelled v v.compactChars := by
  induction h with
  | null => exact .null
  | bool b => exact .bool b
  | text s => exact .text s
  | list _ ih =>
    rw [Value.compactChars, compactItems_eq_map, ← Gaps.between_none]
    exact .list Gaps.none ih
  | object _ ih =>
    rw [Value.compactChars, compactMembers_eq_map, ← Gaps.between_none]
    exact .object Gaps.none ih

theorem spelled_prettyChars {room : Nat} {v : Value} (h : v.Fits room) (level : Nat) :
    Spelled v (v.prettyChars level) := by
  induction h generalizing level with
  | null => exact .null
  | bool b => exact .bool b
  | text s => exact .text s
  | list _ ih =>
    rw [Value.prettyChars, prettyItems_eq_map, Gaps.bracketed_eq]
    exact .list (Gaps.lines level) fun v hv => ih v hv (level + 1)
  | object _ ih =>
    rw [Value.prettyChars, prettyMembers_eq_map, Gaps.bracketed_eq]
    exact .object (Gaps.lines level) fun e he => ih e he (level + 1)

/-- Members that are all kept. -/
theorem passes_keep {value : Reader Value} {es : List (String × Value)}
    (h : ∀ e ∈ es, Reads value e.2 e.2) (known : List (String × Value)) :
    Passes (keep value) known es (es.reverse ++ known) := by
  induction es generalizing known with
  | nil => exact .nil
  | cons e es ih =>
    rw [List.forall_mem_cons] at h
    rw [List.reverse_cons, List.append_assoc]
    refine .cons rfl (fun s hs gap hgap rest => ?_) (ih h.2 (e :: known))
    obtain ⟨hlt, hvalue⟩ := h.1 s hs gap hgap rest
    refine ⟨hlt, ?_⟩
    simp only [hvalue, bind, Except.bind]
    rfl

theorem members_between {value : Reader Value} {es : List (String × Value)}
    (h : ∀ e ∈ es, Reads value e.2 e.2) (gaps : Gaps) {spell : Value → List Char}
    (hspell : ∀ e ∈ es, Spelled e.2 (spell e.2)) (rest : List Char) :
    Takes (members value) (gaps.between (es.map (gaps.member spell)) ++ '\x7d' :: rest) es
      rest := by
  obtain ⟨hlt, hfold⟩ := (passes_keep h []).foldMembers gaps hspell rest
  refine ⟨hlt, ?_⟩
  rw [members, hfold]
  simp only [bind, Except.bind, List.append_nil, List.reverse_reverse]
  rfl

/-- A value without parts is read with its head. -/
theorem readValue_of_readHead {room : Nat} {v : Value} (hlist : ∀ items, v ≠ .list items)
    (hobject : ∀ members, v ≠ .object members) {s rest : List Char}
    (h : Takes readHead s v.head rest) : Takes (readValue room) s v rest := by
  obtain ⟨hlt, h⟩ := h
  refine ⟨hlt, ?_⟩
  rw [readValue, h]
  cases v with
  | list items => exact absurd rfl (hlist items)
  | object members => exact absurd rfl (hobject members)
  | _ => rfl

/-- **Values.** -/
theorem reads_readValue {room : Nat} {v : Value} (h : v.Fits room) :
    Reads (readValue room) v v := by
  induction h with
  | null =>
    rintro _ ⟨⟩ gap hgap rest
    exact readValue_of_readHead (by simp) (by simp) (readHead_null hgap rest)
  | bool b =>
    rintro _ ⟨⟩ gap hgap rest
    exact readValue_of_readHead (by simp) (by simp) (readHead_bool hgap b rest)
  | text s =>
    rintro _ ⟨⟩ gap hgap rest
    exact readValue_of_readHead (by simp) (by simp) (readHead_text hgap s rest)
  | @list room items _ ih =>
    intro s hs gap hgap rest
    cases hs with
    | @list gaps _ spell hspell =>
      obtain ⟨h₁, hhead⟩ := readHead_list hgap (gaps.between (items.map spell) ++ ']' :: rest)
      obtain ⟨h₂, helements⟩ := elements_between gaps (fun v hv => (hspell v hv).begins)
        (fun v hv => (ih v hv).takes (hspell v hv)) rest
      rw [List.cons_append, List.append_assoc, List.singleton_append]
      refine ⟨by omega, ?_⟩
      rw [readValue, hhead]
      simp only [bind, Except.bind, helements]
      rfl
  | @object room es _ ih =>
    intro s hs gap hgap rest
    cases hs with
    | @object gaps _ spell hspell =>
      obtain ⟨h₁, hhead⟩ := readHead_object hgap
        (gaps.between (es.map (gaps.member spell)) ++ '\x7d' :: rest)
      obtain ⟨h₂, hmembers⟩ := members_between ih gaps hspell rest
      rw [List.cons_append, List.append_assoc, List.singleton_append]
      refine ⟨by omega, ?_⟩
      rw [readValue, hhead]
      simp only [bind, Except.bind, hmembers]
      rfl

end Transducers.Json
