/-!
# Access to files and programs

All that the program does outside itself, as a record of actions in some monad: a
model of a directory tree has such a record, and so has the machine the program
runs on.

* `joinPath`: the path of a file in a directory;
* `Disk`: the actions;
* `FileError`, `Launch`: what can come of them;
* `ExitStatus.message`: the end of a program in words.
-/

namespace Transducers

/-- A file of a directory; a name from the root on stands for itself. -/
def joinPath (directory name : String) : String :=
  if name.toList.head? = some '/' ∨ directory = "" then name
  else if directory.toList.getLast? = some '/' then directory ++ name
  else directory ++ "/" ++ name

/-- Why a file cannot be read or written. -/
inductive FileError where
  | notFound
  | notADirectory
  | isADirectory
  | permissionDenied
  | nameTooLong
  /-- The name has a NUL in it. -/
  | invalidName
  /-- The contents are not UTF-8. -/
  | invalidText
  /-- Another error of the system, with its number and its text. -/
  | other (code : Nat) (text : String)
  deriving DecidableEq, Repr

def FileError.message : FileError → String
  | notFound => "No such file or directory (os error 2)"
  | notADirectory => "Not a directory (os error 20)"
  | isADirectory => "Is a directory (os error 21)"
  | permissionDenied => "Permission denied (os error 13)"
  | nameTooLong => "File name too long (os error 36)"
  | invalidName => "file name contained an unexpected NUL byte"
  | invalidText => "stream did not contain valid UTF-8"
  | other code text => s!"{text} (os error {code})"

/-- How a program ended. -/
inductive ExitStatus where
  | code (n : Nat)
  /-- A signal ended it, and perhaps an image of its memory was left behind. -/
  | signal (number : Nat) (dumped : Bool)
  deriving DecidableEq, Repr

/-- The names of the signals, from the first on. -/
def signalNames : List String :=
  ["SIGHUP", "SIGINT", "SIGQUIT", "SIGILL", "SIGTRAP", "SIGABRT", "SIGBUS", "SIGFPE", "SIGKILL",
    "SIGUSR1", "SIGSEGV", "SIGUSR2", "SIGPIPE", "SIGALRM", "SIGTERM", "SIGSTKFLT", "SIGCHLD",
    "SIGCONT", "SIGSTOP", "SIGTSTP", "SIGTTIN", "SIGTTOU", "SIGURG", "SIGXCPU", "SIGXFSZ",
    "SIGVTALRM", "SIGPROF", "SIGWINCH", "SIGIO", "SIGPWR", "SIGSYS"]

/-- The name of a signal in brackets; nothing for a number without a name. -/
def signalTitle : Nat → String
  | 0 => ""
  | n + 1 =>
    match signalNames[n]? with
    | some name => s!" ({name})"
    | none => ""

def ExitStatus.message : ExitStatus → String
  | code n => s!"exit status: {n}"
  | signal number dumped =>
    s!"signal: {number}" ++ signalTitle number ++ if dumped then " (core dumped)" else ""

/-- What becomes of starting a program. -/
inductive Launch where
  /-- There is no such program. -/
  | notFound
  /-- It is there and cannot be started. -/
  | refused (error : FileError)
  /-- It ran: how it ended, and what it wrote to its error stream. -/
  | ended (status : ExitStatus) (errorText : String)
  deriving DecidableEq, Repr

/-- What can be done to files and with programs. -/
structure Disk (m : Type → Type) where
  read : (path : String) → m (Except FileError ByteArray)
  /-- Make a file or replace what is in it. -/
  write : (path : String) → ByteArray → m (Except FileError Unit)
  /-- Make an empty file that was not there.  Its name in the directory is a word between
  two given texts, and the action chooses the word.  Gives a path of the file. -/
  create : (directory first last : String) → m (Except FileError String)
  /-- Write into a file that was made empty. -/
  fill : (path : String) → ByteArray → m (Except FileError Unit)
  remove : (path : String) → m (Except FileError Unit)
  /-- Run a program with arguments to its end. -/
  launch : (program : String) → (arguments : List String) → m Launch

end Transducers
