import Transducers.Json.Value

/-!
# JSON text of a value

* `Value.compact`: no space at all;
* `Value.pretty`: one item a line, two blanks for each level, and an empty list
  or object on one line.
-/

namespace Transducers.Json

/-- A digit of a hexadecimal number, in lower case. -/
def hexDigit (n : Nat) : Char := Nat.digitChar (n % 16)

/-- One character inside a JSON string: only what must be escaped is. -/
def escapeChar (c : Char) : List Char :=
  match c with
  | '"' => ['\\', '"']
  | '\\' => ['\\', '\\']
  | '\x08' => ['\\', 'b']
  | '\x0c' => ['\\', 'f']
  | '\n' => ['\\', 'n']
  | '\r' => ['\\', 'r']
  | '\t' => ['\\', 't']
  | _ =>
    if c.toNat < 32 then ['\\', 'u', '0', '0', hexDigit (c.toNat / 16), hexDigit c.toNat] else [c]

def stringChars (s : String) : List Char :=
  '"' :: s.toList.flatMap escapeChar ++ ['"']

def boolChars (b : Bool) : List Char :=
  if b then ['t', 'r', 'u', 'e'] else ['f', 'a', 'l', 's', 'e']

/-- Lists of characters with a comma between each two. -/
def commaSeparated : List (List Char) → List Char
  | [] => []
  | [x] => x
  | x :: y :: rest => x ++ ',' :: commaSeparated (y :: rest)

namespace Value

/-! ## Without space -/

mutual

def compactChars : Value → List Char
  | null => ['n', 'u', 'l', 'l']
  | bool b => boolChars b
  | number n => n.text.toList
  | text s => stringChars s
  | list items => '[' :: commaSeparated (compactItems items) ++ [']']
  | object members => '\x7b' :: commaSeparated (compactMembers members) ++ ['\x7d']

def compactItems : List Value → List (List Char)
  | [] => []
  | v :: rest => compactChars v :: compactItems rest

def compactMembers : List (String × Value) → List (List Char)
  | [] => []
  | (name, v) :: rest => (stringChars name ++ ':' :: compactChars v) :: compactMembers rest

end

def compact (v : Value) : String := .ofList v.compactChars

/-! ## With lines -/

/-- A new line at some level. -/
def newLine (level : Nat) : List Char := '\n' :: List.replicate (2 * level) ' '

/-- Brackets around items on lines of their own, one level deeper. -/
def bracketed (level : Nat) (opening closing : Char) : List (List Char) → List Char
  | [] => [opening, closing]
  | items =>
    opening :: commaSeparated (items.map (newLine (level + 1) ++ ·)) ++ newLine level ++ [closing]

mutual

def prettyChars (level : Nat) : Value → List Char
  | null => ['n', 'u', 'l', 'l']
  | bool b => boolChars b
  | number n => n.text.toList
  | text s => stringChars s
  | list items => bracketed level '[' ']' (prettyItems level items)
  | object members => bracketed level '\x7b' '\x7d' (prettyMembers level members)

def prettyItems (level : Nat) : List Value → List (List Char)
  | [] => []
  | v :: rest => prettyChars (level + 1) v :: prettyItems level rest

def prettyMembers (level : Nat) : List (String × Value) → List (List Char)
  | [] => []
  | (name, v) :: rest =>
    (stringChars name ++ ':' :: ' ' :: prettyChars (level + 1) v) :: prettyMembers level rest

end

def pretty (v : Value) : String := .ofList (v.prettyChars 0)

end Value

end Transducers.Json
