import Transducers.Files.Disk
import Transducers.Output.Format
import Transducers.Diagram.GraphMl
import Transducers.Diagram.Export

/-!
# Diagrams in files

A text format is written at once.  For an image the DOT text goes to a new file,
from which another program makes the image; that file is removed unless the image
was made and the file is to be kept.

* `OutputFormat.text`: the text of a diagram in a format;
* `Renderer.render`: a diagram in a file, whose path is the answer.
-/

namespace Transducers

/-- White space, as Unicode has it. -/
def isWhiteSpace (c : Char) : Bool :=
  let n := c.toNat
  (9 ≤ n && n ≤ 13) || n = 0x20 || n = 0x85 || n = 0xa0 || n = 0x1680 ||
    (0x2000 ≤ n && n ≤ 0x200a) || n = 0x2028 || n = 0x2029 || n = 0x202f || n = 0x205f ||
    n = 0x3000

/-- The text without the white space at its ends. -/
def trimmed (s : String) : String :=
  .ofList ((s.toList.dropWhile isWhiteSpace).reverse.dropWhile isWhiteSpace).reverse

inductive RenderError where
  | file (path : String) (error : FileError)
  /-- The layout program is not installed. -/
  | programNotFound (program : String)
  /-- The layout program did not end with code zero. -/
  | programFailed (status : ExitStatus) (errorText : String)
  | unknownFormat (name : String)
  deriving DecidableEq, Repr

def RenderError.message : RenderError → String
  | file path error => s!"I/O error on '{path}': {error.message}"
  | programNotFound program => s!"Graphviz program '{program}' not found; is Graphviz installed?"
  | programFailed status errorText => s!"Graphviz exited with {status.message}: {errorText}"
  | unknownFormat name =>
    s!"Unsupported output format '{name}' (expected png, svg, dot, json or graphml)"

/-- The format with this name. -/
def OutputFormat.parse (name : String) : Except RenderError OutputFormat :=
  match ofName? name with
  | some format => .ok format
  | none => .error (.unknownFormat name)

/-- What is written for a format; a layout program is given the DOT text. -/
def OutputFormat.text (format : OutputFormat) (d : Diagram) : String :=
  match format with
  | png => d.dot
  | svg => d.dot
  | dot => d.dot
  | json => d.exported.text
  | graphMl => d.graphMl

/-- How diagrams are put into files. -/
structure Renderer where
  /-- The layout program. -/
  program : String := "dot"
  directory : String := "."
  /-- Whether the file for the layout program stays when the image is made. -/
  keepSource : Bool := false
  deriving DecidableEq, Repr

namespace Renderer

variable {m : Type → Type} [Monad m]

/-- The path of the file for a base name and a format. -/
def target (r : Renderer) (base : String) (format : OutputFormat) : String :=
  joinPath r.directory (base ++ "." ++ format.extension)

/-- What the end of the layout program means for its file. -/
def outcome (r : Renderer) (source : String) : Launch → Except RenderError Unit
  | .notFound => .error (.programNotFound r.program)
  | .refused e => .error (.file source e)
  | .ended (.code 0) _ => .ok ()
  | .ended status errorText => .error (.programFailed status (trimmed errorText))

/-- Lay out a content from a new file, which is removed in the end unless the program
succeeds and the file is to be kept. -/
def layout (disk : Disk m) (r : Renderer) (content : ByteArray) (base target : String)
    (format : OutputFormat) : m (Except RenderError Unit) := do
  match ← disk.create r.directory (base ++ ".") ".gv" with
  | .error e => return .error (.file r.directory e)
  | .ok source =>
    match ← disk.fill source content with
    | .error e =>
      let _ ← disk.remove source
      return .error (.file source e)
    | .ok () =>
      let arguments := ["-T" ++ format.extension, source, "-o", target]
      match r.outcome source (← disk.launch r.program arguments) with
      | .error e =>
        let _ ← disk.remove source
        return .error e
      | .ok () =>
        if r.keepSource then return .ok ()
        else return (← disk.remove source).mapError (.file source)

/-- Put a diagram into the file for a base name and a format. -/
def render (disk : Disk m) (r : Renderer) (d : Diagram) (base : String) (format : OutputFormat) :
    m (Except RenderError String) := do
  let target := r.target base format
  let content := (format.text d).toUTF8
  if format.needsLayout then
    return (← r.layout disk content base target format).map fun () => target
  else
    return ((← disk.write target content).mapError (.file target)).map fun () => target

end Renderer

end Transducers
