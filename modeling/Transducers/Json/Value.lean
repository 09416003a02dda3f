import Transducers.Decimal.Shortest

/-!
# JSON values

An object keeps its members in the order of the text, repeated names included.
Numbers written without fraction and exponent are whole as long as they fit into
64 bits; all others are binary floating point.
-/

namespace Transducers.Json

inductive Number where
  | whole (n : Int)
  | real (x : Binary64)
  deriving DecidableEq, Repr

def Number.text : Number → String
  | whole n => toString n
  | real x => x.text

inductive Value where
  | null
  | bool (b : Bool)
  | number (n : Number)
  | text (s : String)
  | list (items : List Value)
  | object (members : List (String × Value))
  deriving Repr

/-- What a value begins with: all of it, or the bracket that opens it. -/
inductive Head where
  | null
  | bool (b : Bool)
  | number (n : Number)
  | text (s : String)
  | list
  | object
  deriving DecidableEq, Repr

def Value.head : Value → Head
  | null => .null
  | bool b => .bool b
  | number n => .number n
  | text s => .text s
  | list _ => .list
  | object _ => .object

end Transducers.Json
