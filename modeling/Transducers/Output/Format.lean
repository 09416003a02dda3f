/-!
# Output formats

Images are laid out by another program; the other formats are plain text.
-/

namespace Transducers

inductive OutputFormat where
  | png
  | svg
  | dot
  | json
  | graphMl
  deriving DecidableEq, Repr

namespace OutputFormat

/-- The extension of the files, which is also the name of the format. -/
def extension : OutputFormat → String
  | png => "png"
  | svg => "svg"
  | dot => "gv"
  | json => "json"
  | graphMl => "graphml"

/-- The format used if none is named. -/
def default : OutputFormat := png

/-- Whether another program has to lay out the diagram. -/
def needsLayout : OutputFormat → Bool
  | png => true
  | svg => true
  | _ => false

/-- The format with this name, in small or capital letters. -/
def ofName? (name : String) : Option OutputFormat :=
  match name.map Char.toLower with
  | "png" => some png
  | "svg" => some svg
  | "dot" => some dot
  | "gv" => some dot
  | "json" => some json
  | "graphml" => some graphMl
  | _ => none

theorem ofName?_extension (f : OutputFormat) : ofName? f.extension = some f := by
  cases f <;> decide +kernel

end OutputFormat

end Transducers
