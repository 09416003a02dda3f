import Transducers.OrderedMap
import Transducers.Files.Disk

/-!
# A model of a directory tree

A store holds files and directories, each at a path, and one directory is the working
directory.  A path is a list of names from the root on.  A name has at most 255 bytes
and the text of a path at most 4095.

* `Store.locate`: the path that a text names, if all directories on the way exist;
* `Store.read`, `Store.write`, `Store.create`, `Store.fill`, `Store.remove`: files;
* `Store.disk`: the store as a disk;
* `Store.ofList`, `Store.listing`: files below the working directory.
-/

namespace Transducers

/-- Names from the root on. -/
abbrev Path := List String

/-- What lies at a path. -/
inductive FileNode where
  | file (content : ByteArray)
  | directory

def FileNode.isDirectory : FileNode → Bool
  | file _ => false
  | directory => true

structure Store where
  nodes : OrderedMap Path FileNode
  /-- The working directory. -/
  here : Path

namespace Store

/-- Whether there is a directory at the path; the root is always there. -/
def isDirectory (s : Store) (path : Path) : Bool :=
  path.isEmpty || (s.nodes.get? path).any FileNode.isDirectory

/-- What the file at the path holds, if there is one. -/
def content? (s : Store) (path : Path) : Option ByteArray :=
  match s.nodes.get? path with
  | some (.file content) => some content
  | _ => none

/-- Whether there is a file or a directory at the path. -/
def isThere (s : Store) (path : Path) : Bool := path.isEmpty || s.nodes.contains path

/-- Why there is no file at a path without one. -/
def absence (s : Store) (path : Path) : FileError :=
  if s.isDirectory path then .isADirectory else .notFound

/-! ## Paths -/

/-- The pieces of a text between slashes. -/
def pieces (text : String) : List String :=
  (text.toList.splitOn '/').map .ofList

/-- Whether no file can have the name, because it is longer than 255 bytes. -/
def isTooLong (name : String) : Bool := 255 < name.utf8ByteSize

/-- Go from a path along names: each name is looked up in a directory.  A dot and
an empty name stay there, two dots lead out of it, and out of the root to the root. -/
def walk (s : Store) (place : Path) : List String → Except FileError Path
  | [] => .ok place
  | name :: rest =>
    if !s.isDirectory place then
      .error (if s.isThere place then .notADirectory else .notFound)
    else if name = "" ∨ name = "." then s.walk place rest
    else if name = ".." then s.walk place.dropLast rest
    else if isTooLong name then .error .nameTooLong
    else s.walk (place ++ [name]) rest

/-- The path that a text names: from the root if it begins with a slash, else from the
working directory. -/
def locate (s : Store) (text : String) : Except FileError Path :=
  if '\x00' ∈ text.toList then .error .invalidName
  else if text = "" then .error .notFound
  else if 4095 < text.utf8ByteSize then .error .nameTooLong
  else if text.toList.head? = some '/' then s.walk [] (pieces text)
  else s.walk s.here (pieces text)

/-! ## Files -/

/-- The store with a file at the path. -/
def put (s : Store) (path : Path) (content : ByteArray) : Store :=
  { s with nodes := s.nodes.insert path (.file content) }

def read (s : Store) (text : String) : Except FileError ByteArray := do
  let path ← s.locate text
  match s.content? path with
  | some content => return content
  | none => throw (s.absence path)

def write (s : Store) (text : String) (content : ByteArray) : Except FileError (Unit × Store) := do
  let path ← s.locate text
  if s.isDirectory path then throw .isADirectory
  else return ((), s.put path content)

/-- Make an empty file with the first of some words that names nothing that is there. -/
def create (s : Store) (directory first last : String) :
    (words : List String) → Except FileError (String × Store)
  | [] => .error (.other 17 "File exists")
  | word :: words =>
    let text := joinPath directory (first ++ word ++ last)
    match s.locate text with
    | .error e => .error e
    | .ok path =>
      if s.isThere path then s.create directory first last words
      else .ok (text, s.put path .empty)

/-- Write into a file that is there. -/
def fill (s : Store) (text : String) (content : ByteArray) : Except FileError (Unit × Store) := do
  let path ← s.locate text
  match s.content? path with
  | some _ => return ((), s.put path content)
  | none => throw (s.absence path)

def remove (s : Store) (text : String) : Except FileError (Unit × Store) := do
  let path ← s.locate text
  match s.content? path with
  | some _ => return ((), { s with nodes := s.nodes.erase path })
  | none => throw (s.absence path)

/-- Start a program.  A name with a slash is a path, and nothing in the store can
be run; other names are looked up among the installed programs, where one dot and
two dots are directories. -/
def launch (installed : String → Option (ExitStatus × String)) (s : Store) (program : String) :
    Launch :=
  if '\x00' ∈ program.toList then .refused .invalidName
  else if '/' ∈ program.toList then
    match s.locate program with
    | .error .notFound => .notFound
    | .error e => .refused e
    | .ok path => if s.isThere path then .refused .permissionDenied else .notFound
  else if program = "." ∨ program = ".." then .refused .permissionDenied
  else
    match installed program with
    | some (status, errorText) => .ended status errorText
    | none => if isTooLong program then .refused .nameTooLong else .notFound

/-! ## The disk -/

/-- An action that succeeds with a value and a new store, or leaves the store alone. -/
def act {α : Type} (action : Store → Except FileError (α × Store)) :
    StateM Store (Except FileError α) := fun s =>
  match action s with
  | .ok (x, t) => (.ok x, t)
  | .error e => (.error e, s)

/-- The store as a disk, with programs that write no files, and the words that are tried
for the names of new files. -/
def disk (programs : Store → String → List String → Launch) (words : List String) :
    Disk (StateM Store) where
  read text s := (s.read text, s)
  write text content := act fun s => s.write text content
  create directory first last := act fun s => s.create directory first last words
  fill text content := act fun s => s.fill text content
  remove text := act fun s => s.remove text
  launch program arguments s := (programs s program arguments, s)

/-! ## Making stores -/

/-- The path and all that it goes through as directories. -/
def withDirectory (s : Store) (path : Path) : Store :=
  (List.range (path.length + 1)).foldl (fun s n =>
    if s.isDirectory (path.take n) then s
    else { s with nodes := s.nodes.insert (path.take n) .directory }) s

/-- The names in a text that do not stay where they are. -/
def names (text : String) : Path := (pieces text).filter fun name => name ≠ "" ∧ name ≠ "."

/-- Put a file at the end of a way of names, and make the directories on the way. -/
def place (s : Store) (text : String) (content : ByteArray) : Store :=
  let path := s.here ++ names text
  (s.withDirectory path.dropLast).put path content

/-- A store with an empty working directory. -/
def fresh : Store := withDirectory ⟨.empty, ["tmp", "work"]⟩ ["tmp", "work"]

def ofList (files : List (String × ByteArray)) : Store :=
  files.foldl (fun s file => s.place file.1 file.2) fresh

/-- The files below the working directory, with their paths from there as texts. -/
def listing (s : Store) : List (String × ByteArray) :=
  s.nodes.entries.filterMap fun (path, node) =>
    match node with
    | .file content =>
      if s.here.isPrefixOf path then
        some ("/".intercalate (path.drop s.here.length), content)
      else none
    | .directory => none

end Store

end Transducers
