import Transducers.Command

/-!
# The program

The command on the files of the machine it runs on.  It starts no other program, so
to it none is installed; and about a text that is not JSON it says no more than that.
-/

namespace Transducers

/-- Why the system refused an action on a file. -/
def fileError : IO.Error → FileError
  | .permissionDenied _ _ _ => .permissionDenied
  | .inappropriateType _ code _ => if code = 21 then .isADirectory else .notADirectory
  -- Of a name without a NUL, only the length can be wrong.
  | .invalidArgument _ _ _ => .nameTooLong
  | .otherError code text => .other code.toNat text
  | _ => .notFound

/-- An action on a file with its failure as a value. -/
def attempt {α : Type} (path : String) (action : IO α) : IO (Except FileError α) := do
  if '\x00' ∈ path.toList then return .error .invalidName
  else
    match ← action.toBaseIO with
    | .ok x => return .ok x
    | .error e => return .error (fileError e)

/-- The letters of the words for new files. -/
def wordLetters : List Char :=
  "0123456789ABCDEFGHIJKLMNOPQRSTUVWXYZabcdefghijklmnopqrstuvwxyz".toList

/-- Six letters at random. -/
def randomWord : IO String := do
  let letters ← (List.replicate 6 ()).mapM fun _ => do
    let n ← IO.rand 0 (wordLetters.length - 1)
    return wordLetters.getD n '0'
  return .ofList letters

/-- How many words are tried before a file is given up. -/
def maxAttempts : Nat := 65536

/-- Make an empty file with a random word that gives a new name. -/
def createFresh (directory first last : String) :
    (attempts : Nat) → IO (Except FileError String)
  | 0 => return .error (.other 17 "File exists")
  | attempts + 1 => do
    let path := joinPath directory (first ++ (← randomWord) ++ last)
    match ← (IO.FS.Handle.mk path .writeNew).toBaseIO with
    | .ok _ => return .ok path
    | .error (.alreadyExists _ _ _) => createFresh directory first last attempts
    | .error e => return .error (fileError e)

/-- The files of the machine the program runs on. -/
def systemDisk : Disk IO where
  read path := attempt path (IO.FS.readBinFile path)
  write path content := attempt path (IO.FS.writeBinFile path content)
  create directory first last :=
    if '\x00' ∈ (directory ++ first).toList then return .error .invalidName
    else createFresh directory first last maxAttempts
  fill path content := attempt path (IO.FS.writeBinFile path content)
  remove path := attempt path (IO.FS.removeFile path)
  launch _ _ := return .notFound

def plainWording : JsonWording where
  broken _ := "syntax error"
  place _ := ""

/-- Run the command and write what it says to the two streams.  Gives its code. -/
def runCommand (arguments : List String) : IO UInt32 := do
  let result ← command systemDisk plainWording (programName [] :: arguments)
  (← IO.getStdout).putStr result.output
  (← IO.getStderr).putStr result.errors
  return result.code.toUInt32

end Transducers

def main (arguments : List String) : IO UInt32 := Transducers.runCommand arguments
