import Justfile.Command.Run
import Std.Time.Format

/-!
# The compiler as a program

`main` collects what a run of the compiler depends on, lets `Command.compileRun` decide, and then
prints and writes what that says.
-/

namespace Justfile.Main

open Command

/-- The text of a file, if there is one that can be read. -/
def load (path : String) : IO (Option String) := do
  try
    return some (← IO.FS.readFile path)
  catch _ =>
    return none

/-- Whether there is a directory at a path. -/
def isFolder (path : String) : IO Bool := do
  try
    let _ ← IO.FS.realPath (path ++ "/.")
    return true
  catch _ =>
    return false

/-- The files at the paths where there are any. -/
def loadAll (paths : List String) : IO Files :=
  paths.foldlM (fun files path => do
    match ← load path with
    | some text => return files.put path ⟨text, false⟩
    | none => return files) .empty

/-- The rights of a script: everybody may read it, and its owner may change and run it. -/
def scriptRights : IO.FileRight where
  user := ⟨true, true, true⟩
  group := ⟨true, false, false⟩
  other := ⟨true, false, false⟩

/-- Writes a file, and makes it executable if it is to be. -/
def store (path : String) (file : File) : IO Unit := do
  IO.FS.writeFile path file.text
  if file.executable then IO.setAccessRights path scriptRights

/-- The message for a run that ended early. -/
def faultText : Fault → String
  | .refused f => f.message
  | .path f => f.message

end Justfile.Main

open Justfile Command Main in
/-- Compiles a justfile to a shell script. -/
def main (args : List String) : IO UInt32 := do
  let base : Invocation := {
    program := (← IO.appPath).toString
    args := args
    stdin := ""
    files := .empty
    folders := []
    edition := ⟨toString (← Std.Time.PlainDate.now), "unknown"⟩ }
  let folders ← (base.paths.map Files.folder).eraseDups.filterM fun path =>
    if path == "" then return false else isFolder path
  let known := { base with files := ← loadAll base.paths, folders := folders }
  let stdin ← if known.readsInput then (← IO.getStdin).readToEnd else pure ""
  let result := compileRun { known with stdin := stdin }
  IO.eprint result.stderr
  IO.print result.stdout
  for (path, file) in result.files.entries do
    if known.files.find? path ≠ some file then store path file
  if let some fault := result.fault then IO.eprintln ("error: " ++ faultText fault)
  return UInt32.ofNat result.exit
