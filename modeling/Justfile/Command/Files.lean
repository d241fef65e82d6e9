import Justfile.Table
import Justfile.Text.Lines
import Justfile.Text.Quoted

/-!
# Files of a directory

The files that a command can read and write: those of one directory, and, by their whole path,
those of some other directories.
-/

namespace Justfile.Command

/-- A file. -/
structure File where
  text : String
  executable : Bool
  deriving DecidableEq

/-- The text of a file as it is read, with its line ends unified. -/
def File.unified (f : File) : String :=
  String.ofList (Text.unifyLineEnds f.text.toList)

/-- The files of a directory by name, and files of other directories by path. -/
abbrev Files := Table File

/-- Why a path cannot be opened. -/
inductive PathFault where
  | missing (path : String)
  | isDirectory
  | notDirectory
  deriving DecidableEq

/-- The message for a path that cannot be opened. -/
def PathFault.message : PathFault → String
  | .missing path => "[Errno 2] No such file or directory: " ++ Text.quotedString path
  | .isDirectory => ""
  | .notDirectory => ""

/-- What a file is opened for. -/
inductive Access where
  | reading
  | writing

namespace Files

/-- What stands between the slashes of a path. -/
def parts (path : String) : List String :=
  (path.toList.splitOn '/').map String.ofList

/-- The names along a path. -/
def steps (path : String) : List String :=
  (parts path).filter (· != "")

/-- Whether a name leads to a directory wherever it stands: the same one, or the one above. -/
def isDots (name : String) : Bool :=
  name == "." || name == ".."

/-- The directory of a file, as its path has it. -/
def folder (path : String) : String :=
  match (parts path).dropLast with
  | [""] => "/"
  | names => "/".intercalate names

/-- The name of the file that a path leads to. In one of the other directories it is the path, and a file there is
assumed to be always named by the same path: with `.` among these directories, `./justfile` and `justfile` would be two
files. -/
def locate (folders : List String) (fs : Files) (access : Access) (path : String) :
    Except PathFault String :=
  let names := steps path
  if path.isEmpty then throw (.missing path)
  else if names.all isDots then throw .isDirectory
  else if folders.contains (folder path) then
    if path.endsWith "/" || names.getLast?.any isDots then throw .isDirectory else pure path
  else if path.startsWith "/" then throw (.missing path)
  else match names.dropWhile (· == "."), path.endsWith "/", access with
  | [name], false, _ => pure name
  | [_], true, .writing => throw .isDirectory
  | name :: _, _, _ => if fs.contains name then throw .notDirectory else throw (.missing path)
  | [], _, _ => throw .isDirectory

/-- The text that is read from a path. -/
def read (folders : List String) (fs : Files) (path : String) : Except PathFault String := do
  match fs.find? (← fs.locate folders .reading path) with
  | some f => pure f.unified
  | none => throw (.missing path)

/-- The files with one emptied, or made empty. -/
def emptied (fs : Files) (name : String) : Files :=
  fs.put name ⟨"", ((fs.find? name).map (·.executable)).getD false⟩

/-- The files with an executable one of a text. -/
def withScript (fs : Files) (name text : String) : Files :=
  fs.put name ⟨text, true⟩

/-- The files that differ from those of `old`, by name. -/
def changed (old new : Files) : List (String × File) :=
  (new.entries.filter fun (name, f) => (old.find? name).map (·.text) != some f.text).mergeSort
    fun a b => decide (a.1 ≤ b.1)

end Files

end Justfile.Command
