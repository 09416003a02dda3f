import Transducers.Definition.Load
import Transducers.Output.Render
import Transducers.Diagram.Draw

/-!
# The command

Reads a machine from a file, converts it to the other kind and puts the diagram of
the result into a file.  The stages are: the number of arguments, the format, the
definition, the conversion, the file; the first that fails ends the command.

* `command`: what the command writes, and the code with which it ends;
* `convertAndRender`: the stages after the first.
-/

namespace Transducers

/-- Why the command fails. -/
inductive CommandError where
  | load (error : LoadError)
  | conversion (error : MachineError)
  | render (error : RenderError)
  deriving DecidableEq, Repr

def CommandError.message (wording : JsonWording) : CommandError → String
  | load e => e.message wording
  | conversion e => e.message
  | render e => e.message

/-- What the command writes to its two streams, and the code with which it ends. -/
structure CommandResult where
  code : Nat
  output : String
  errors : String
  deriving DecidableEq, Repr

/-- The name under which the command was called, which a caller may leave out. -/
def programName (arguments : List String) : String := arguments.head?.getD "mealy-moore"

def usage (program : String) : String :=
  s!"Usage: {program} <definition.json> [output-base] [format]\n" ++
  "  Converts a Mealy machine to Moore (or Moore to Mealy) and renders it\n" ++
  "  format: png (default), svg, dot, json, graphml\n"

/-- The kind of a machine in messages. -/
def MachineKind.title : MachineKind → String
  | mealy => "Mealy"
  | moore => "Moore"

variable {m : Type → Type} [Monad m]

/-- The stages after the arguments were counted.  Gives what is written at the end. -/
def convertAndRender (disk : Disk m) (path : String) (base format : Option String) :
    m (Except CommandError String) := do
  match (format.map OutputFormat.parse).getD (.ok .default) with
  | .error e => return .error (.render e)
  | .ok format =>
    match ← loadDefinition disk path with
    | .error e => return .error (.load e)
    | .ok machine =>
      match machine.convert with
      | .error e => return .error (.conversion e)
      | .ok converted =>
        let diagram := converted.diagram
        match ← Renderer.render disk {} diagram (base.getD diagram.name) format with
        | .error e => return .error (.render e)
        | .ok written =>
          return .ok s!"{converted.kind.title} machine diagram saved as {written}\n"

/-- The command with its arguments: the name under which it is called, a definition,
perhaps a base name, and perhaps a format. -/
def command (disk : Disk m) (wording : JsonWording) (arguments : List String) :
    m CommandResult := do
  match arguments with
  | _ :: path :: rest =>
    if rest.length ≤ 2 then
      match ← convertAndRender disk path rest[0]? rest[1]? with
      | .ok message => return ⟨0, message, ""⟩
      | .error e => return ⟨1, "", s!"Error: {e.message wording}\n"⟩
    else return ⟨1, "", usage (programName arguments)⟩
  | _ => return ⟨1, "", usage (programName arguments)⟩

end Transducers
