import Transducers.Json.Document
import Transducers.Json.Shape

/-!
# Reading records as the text goes by

A record is an object with named fields, or a list of the fields in order.  Each
field is read as soon as it is met, so that the first thing wrong in the text is
the one reported; what is missing shows at the end.  Members with other names are
passed over.

* `Record.read`: a record;
* `readText`, `readOptionalText`, `readList`: the values of fields.
-/

namespace Transducers.Json

/-! ## Values of fields -/

def readText : Reader String := fun s => do
  match ← readHead s with
  | (.text t, r) => return (t, r)
  | (h, _) => throw (.mismatch (.wrongType h "a string"))

def readOptionalText : Reader (Option String) := fun s => do
  match ← readHead s with
  | (.null, r) => return (none, r)
  | (.text t, r) => return (some t, r)
  | (h, _) => throw (.mismatch (.wrongType h "a string"))

def readList {α : Type} (item : Reader α) : Reader (List α) := fun s => do
  match ← readHead s with
  | (.list, ⟨r, hr⟩) =>
    let (xs, ⟨t, ht⟩) ← elements item true r
    return (xs, ⟨t, length_lt_trans hr ht⟩)
  | (h, _) => throw (.mismatch (.wrongType h "a sequence"))

/-! ## Records -/

/-- A field of a record of which `σ` says what is known so far. -/
structure Field (σ : Type) where
  name : String
  isKnown : σ → Bool
  read : σ → Reader σ

/-- A field that is kept in some place of `σ`. -/
def Field.of {σ α : Type} (name : String) (value : Reader α) (get : σ → Option α)
    (set : σ → α → σ) : Field σ where
  name := name
  isKnown known := (get known).isSome
  read known s := do
    let (x, r) ← value s
    return (set known x, r)

/-- A kind of record: its fields in order, and the value once they are known. -/
structure Record (σ α : Type) where
  name : String
  fields : List (Field σ)
  start : σ
  finish : σ → Except Mismatch α

namespace Record

variable {σ α : Type}

/-- A member of the object: a field that is not known yet, or passed over. -/
def member (record : Record σ α) (known : σ) (name : String) : Except Mismatch (Reader σ) :=
  match record.fields.find? (·.name = name) with
  | some field =>
    if field.isKnown known then .error (.duplicateField name) else .ok (field.read known)
  | none => .ok fun s => do
    let (_, r) ← skipValue s
    return (known, r)

/-- The items of a list, one for each of the fields that are left. -/
def readItems (record : Record σ α) : (left : List (Field σ)) → (known : σ) → Reader σ
  | [], known => fun s => do
    let (_, r) ← readClose ']' s
    return (known, r)
  | field :: left, known => fun s => do
    let done := record.fields.length - (left.length + 1)
    match ← next ']' (done = 0) s with
    | .close _ =>
      throw (.mismatch (.wrongLength done
        s!"struct {record.name} with {record.fields.length} elements"))
    | .item ⟨r, hr⟩ =>
      let (known, ⟨t, ht⟩) ← field.read known r
      let (known, ⟨u, hu⟩) ← record.readItems left known t
      return (known, ⟨u, by omega⟩)

def read (record : Record σ α) : Reader α := fun s => do
  match ← readHead s with
  | (.object, ⟨r, hr⟩) =>
    let (known, ⟨t, ht⟩) ← foldMembers readString record.member true record.start r
    let x ← (record.finish known).mapError .mismatch
    return (x, ⟨t, length_lt_trans hr ht⟩)
  | (.list, ⟨r, hr⟩) =>
    let (known, ⟨t, ht⟩) ← record.readItems record.fields record.start r
    let x ← (record.finish known).mapError .mismatch
    return (x, ⟨t, length_lt_trans hr ht⟩)
  | (h, _) => throw (.mismatch (.wrongType h ("struct " ++ record.name)))

end Record

end Transducers.Json
