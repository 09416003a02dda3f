import Transducers.Json.Value
import Transducers.Text.Quoted

/-!
# What can be wrong with a JSON text

A text can break off, break the rules of JSON, or be proper JSON that says
something else than what is to be read from it.  Only the last has a wording.
-/

namespace Transducers.Json

/-- How a proper JSON value misses what was expected. -/
inductive Mismatch where
  | missingField (name : String)
  | duplicateField (name : String)
  /-- A name that is none of the choices. -/
  | unknownVariant (found : String) (choices : List String)
  | wrongType (found : Head) (expected : String)
  /-- A list with the wrong number of items. -/
  | wrongLength (found : Nat) (expected : String)
  /-- A value that has none of the shapes of the type. -/
  | noShape (type : String)
  deriving DecidableEq, Repr

inductive Fault where
  /-- The text breaks a rule of JSON. -/
  | malformed
  /-- The text ends inside a value that was right so far. -/
  | truncated
  | mismatch (m : Mismatch)
  deriving DecidableEq, Repr

/-- The kind of a value, and a short value itself. -/
def Head.description : Head → String
  | null => "null"
  | bool b => s!"boolean `{b}`"
  | number (.whole n) => s!"integer `{n}`"
  | number (.real x) => s!"floating point `{x.text}`"
  | text s => "string " ++ quoted s
  | list => "sequence"
  | object => "map"

/-- The choices in words: a single one, two with "or" between them. -/
def orList (choices : List String) : String :=
  " or ".intercalate (choices.map fun c => s!"`{c}`")

def Mismatch.message : Mismatch → String
  | missingField name => s!"missing field `{name}`"
  | duplicateField name => s!"duplicate field `{name}`"
  | unknownVariant found choices => s!"unknown variant `{found}`, expected {orList choices}"
  | wrongType found expected => s!"invalid type: {found.description}, expected {expected}"
  | wrongLength found expected => s!"invalid length {found}, expected {expected}"
  | noShape type => s!"data did not match any variant of untagged enum {type}"

end Transducers.Json
