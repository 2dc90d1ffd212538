import MiniC.Command.Run

/-! A host in memory: one directory of files, an input, and what was written to the output. -/
namespace MiniC

namespace Command

/-- A directory that holds files only, with the input and the output of a run. -/
structure Folder where
  files : List (String × ByteArray)
  input : ByteArray
  output : String

/-- What a path names, seen from a directory that holds files only. -/
inductive Place where
  | here
  | file (name : String)
  | elsewhere
  deriving DecidableEq, Repr

/-- What a path names. A single dot is the directory itself, and a directory within it does not
exist. -/
def Place.ofPath (path : String) : Place :=
  match (path.splitOn "/").filter fun part => part ≠ "" ∧ part ≠ "." with
  | [] => here
  | [name] => file name
  | _ => elsewhere

namespace Folder

/-- The bytes of a file. -/
def find? (folder : Folder) (name : String) : Option ByteArray :=
  folder.files.lookup name

/-- The text of a file. -/
def read (folder : Folder) (path : String) : Except AccessError String :=
  match Place.ofPath path with
  | .here => .error .isDirectory
  | .elsewhere => .error .notFound
  | .file name =>
    match folder.find? name with
    | some bytes => decode bytes
    | none => .error .notFound

/-- The folder in which a file has a new content. -/
def insert (folder : Folder) (name : String) (bytes : ByteArray) : Folder :=
  { folder with files := (name, bytes) :: folder.files.filter (·.1 ≠ name) }

/-- Writes a text to a file. -/
def write (folder : Folder) (path text : String) : Except AccessError Unit × Folder :=
  match Place.ofPath path with
  | .here => (.error .isDirectory, folder)
  | .elsewhere => (.error .notFound, folder)
  | .file name => (.ok (), folder.insert name text.toUTF8)

/-- The host that acts on a folder. -/
def host : Host (StateM Folder) where
  readFile path := do return (← get).read path
  readInput := do return decode (← get).input
  writeFile path text := modifyGet fun folder => folder.write path text
  writeOutput text := modifyGet fun folder =>
    (.ok (), { folder with output := folder.output ++ text })

/-- The files of a folder that an earlier one has not, or has with other bytes. -/
def changes (before after : Folder) : List (String × ByteArray) :=
  after.files.filter fun (name, bytes) =>
    match before.find? name with
    | some old => old.data ≠ bytes.data
    | none => true

end Folder

end Command

end MiniC
