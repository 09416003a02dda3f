import Transducers.Json.Fault
import Transducers.OrderedMap

/-!
# Values of a given shape

Each function says what a value is as a text, a list of texts or a map, or how it
misses the shape.  A map with repeated names keeps the first position and the last
value, but every value must have the right shape.
-/

namespace Transducers.Json.Value

def asText : Value → Except Mismatch String
  | text s => .ok s
  | v => .error (.wrongType v.head "a string")

def asTexts : Value → Except Mismatch (List String)
  | list items => items.mapM asText
  | v => .error (.wrongType v.head "a sequence")

/-- The members of an object, each value read by `item`. -/
def readMembers {α : Type} (item : Value → Except Mismatch α) :
    List (String × Value) → Except Mismatch (List (String × α))
  | [] => .ok []
  | (name, v) :: rest => do
    let x ← item v
    let xs ← readMembers item rest
    return (name, x) :: xs

def asMap {α : Type} (item : Value → Except Mismatch α) : Value → Except Mismatch (OrderedMap String α)
  | object members => (readMembers item members).map .ofList
  | v => .error (.wrongType v.head "a map")

def asOptionalText : Value → Except Mismatch (Option String)
  | null => .ok none
  | v => v.asText.map some

end Transducers.Json.Value

namespace Transducers.Json

/-- A field that may be given once. -/
def once {α : Type} (name : String) (known : Option α) (read : Except Mismatch α) :
    Except Mismatch (Option α) :=
  if known.isSome then .error (.duplicateField name) else read.map some

/-- A field that must be given. -/
def require {α : Type} (name : String) : Option α → Except Mismatch α
  | some x => .ok x
  | none => .error (.missingField name)

end Transducers.Json
