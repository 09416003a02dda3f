import Transducers.Json.Reader

/-!
# Reading whole values

* `readValue`: a value with all its parts, which may be nested only so deep;
* `skipValue`: any value, of which nothing is kept.  Numbers may be of any size,
  strings may hold lone surrogates, and there is no limit on nesting.
-/

namespace Transducers.Json

/-! ## Values -/

/-- How many lists and objects may be open at the same time. -/
def maxDepth : Nat := 127

/-- A member that is kept in front of those before it. -/
def keep (value : Reader Value) (known : List (String × Value)) (name : String) :
    Except Mismatch (Reader (List (String × Value))) :=
  .ok fun s => do
    let (v, r) ← value s
    return ((name, v) :: known, r)

/-- Members up to the end of an object, all kept. -/
def members (value : Reader Value) : Reader (List (String × Value)) := fun s => do
  let (reversed, r) ← foldMembers readString (keep value) true [] s
  return (reversed.reverse, r)

/-- A value in which at most `room` lists and objects are open at the same time. -/
def readValue (room : Nat) : Reader Value := fun s => do
  match ← readHead s with
  | (.null, r) => return (.null, r)
  | (.bool b, r) => return (.bool b, r)
  | (.number n, r) => return (.number n, r)
  | (.text t, r) => return (.text t, r)
  | (.list, ⟨r, hr⟩) =>
    match room with
    | 0 => throw .malformed
    | room + 1 =>
      let (items, ⟨t, ht⟩) ← elements (readValue room) true r
      return (.list items, ⟨t, by omega⟩)
  | (.object, ⟨r, hr⟩) =>
    match room with
    | 0 => throw .malformed
    | room + 1 =>
      let (entries, ⟨t, ht⟩) ← members (readValue room) r
      return (.object entries, ⟨t, by omega⟩)

/-! ## Values that are passed over -/

/-- The rest of a string, after its opening quote. -/
def skipChars (s : List Char) : Except Fault (Rest s) :=
  match s with
  | [] => .error .truncated
  | c :: r =>
    if c = '"' then .ok ⟨r, length_lt_cons c r⟩
    else if c = '\\' then
      match r with
      | [] => .error .truncated
      | e :: t =>
        if (escaped? e).isSome then do
          let ⟨u, hu⟩ ← skipChars t
          return ⟨u, length_lt_cons_of_lt c (length_lt_cons_of_lt e hu)⟩
        else if e = 'u' then do
          let (_, ⟨u, hu⟩) ← readHex4 t
          let ⟨v, hv⟩ ← skipChars u
          return ⟨v, length_lt_cons_of_lt c (length_lt_cons_of_lt e (length_lt_trans hu hv))⟩
        else .error .malformed
    else if c.toNat < 32 then .error .malformed
    else do
      let ⟨u, hu⟩ ← skipChars r
      return ⟨u, length_lt_cons_of_lt c hu⟩
termination_by s.length
decreasing_by all_goals (simp only [List.length_cons]; omega)

/-- A string that is passed over: its name is not kept. -/
def skipString : Reader String
  | [] => .error .truncated
  | c :: r =>
    if c = '"' then do
      let ⟨t, ht⟩ ← skipChars r
      return ("", ⟨t, length_lt_cons_of_lt c ht⟩)
    else .error .malformed

/-- A number that breaks off counts as broken here. -/
def skipNumber : Reader Unit := fun s =>
  match readNumeral s with
  | .ok (_, r) => .ok ((), r)
  | .error _ => .error .malformed

/-- The front of a value that is passed over. -/
def skipHead : Reader Head := fun s =>
  match skipBlanks s with
  | ⟨[], _⟩ => .error .truncated
  | ⟨c :: r, h⟩ =>
    if c = '"' then do
      let (_, ⟨t, ht⟩) ← skipString (c :: r)
      return (.text "", ⟨t, by simp only [List.length_cons] at ht h; omega⟩)
    else if c = '-' ∨ c.isDigit then do
      let (_, ⟨t, ht⟩) ← skipNumber (c :: r)
      return (.null, ⟨t, by simp only [List.length_cons] at ht h; omega⟩)
    else readHead s

/-- A value that is passed over, with at most `room` lists and objects open. -/
def skipWithin (room : Nat) : Reader Unit := fun s => do
  match ← skipHead s with
  | (.list, ⟨r, hr⟩) =>
    match room with
    | 0 => throw .malformed
    | room + 1 =>
      let (_, ⟨t, ht⟩) ← elements (skipWithin room) true r
      return ((), ⟨t, by omega⟩)
  | (.object, ⟨r, hr⟩) =>
    match room with
    | 0 => throw .malformed
    | room + 1 =>
      let (_, ⟨t, ht⟩) ← foldMembers skipString (fun _ _ => .ok (skipWithin room)) true () r
      return ((), ⟨t, by omega⟩)
  | (_, r) => return ((), r)

/-- Pass over a value; no text opens more lists and objects than it has characters. -/
def skipValue : Reader Unit := fun s => skipWithin s.length s

end Transducers.Json
