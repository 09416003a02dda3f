import Transducers.Definition.Reader
import Transducers.Files.Disk

/-!
# Definitions in files
-/

namespace Transducers

open Json (Fault)

/-- Why a definition cannot be had from a file. -/
inductive LoadError where
  | file (path : String) (error : FileError)
  /-- The text in the file defines no machine. -/
  | definition (source : String) (fault : Fault)
  deriving DecidableEq, Repr

/-- What the JSON library says by itself about a text that is refused. -/
structure JsonWording where
  /-- That it is not JSON, and where. -/
  broken : (source : String) → String
  /-- Where another value was expected, behind the words for what is found; no words for
  what is found out only after reading. -/
  place : (source : String) → String

/-- The words for what is wrong with a text. -/
def JsonWording.message (wording : JsonWording) (source : String) : Fault → String
  | .mismatch m => m.message ++ wording.place source
  | _ => wording.broken source

def LoadError.message (wording : JsonWording) : LoadError → String
  | file path error => s!"Failed to read definition '{path}': {error.message}"
  | definition source fault => s!"Invalid machine definition: {wording.message source fault}"

/-- The machine that a file defines. -/
def loadDefinition {m : Type → Type} [Monad m] (disk : Disk m) (path : String) :
    m (Except LoadError Machine) := do
  match ← disk.read path with
  | .error e => return .error (.file path e)
  | .ok content =>
    match String.fromUTF8? content with
    | none => return .error (.file path .invalidText)
    | some text => return (readDefinition text).mapError (.definition text)

end Transducers
