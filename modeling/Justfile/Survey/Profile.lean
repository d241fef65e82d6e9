import Justfile.Text.Lines

/-!
# Profiles

A profile of a run gives the total time and the time in each function, by the file that defines
it. The repository's own files are told from the harness around them, from code it only carries
along, and from everything else.

* `Profile.ownTime`: the time in files of the repository.
* `Profile.compiledTime`: the time in built-in functions and compiled modules.
* `Profile.otherTimes`: the time in all other modules, by module.
-/

namespace Justfile.Survey

/-- The time of a run and of its functions, by file, in seconds. -/
structure Profile where
  total : Float
  frames : List (String × Float)

/-- The profile of a run that took no time. -/
def Profile.empty : Profile := ⟨0, []⟩

/-- The directory of the repository. -/
def repository : String := "/repo"

/-- The parts of a path between its slashes. -/
def pathParts (path : String) : List String :=
  path.splitOn "/"

/-- Parts of a path, last one first, after one more part: two dots take one part back. -/
def climb (parts : List String) (part : String) : List String :=
  if part == "" || part == "." then parts
  else if part == ".." then parts.drop 1
  else part :: parts

/-- The parts of an absolute path without dots. -/
def resolved (path : String) : List String :=
  ((pathParts path).foldl climb []).reverse

/-- The parts of the path of a file inside the repository. -/
def insideRepository? (path : String) : Option (List String) :=
  match resolved path with
  | root :: rest => if path.startsWith "/" && "/" ++ root == repository then some rest else none
  | [] => none

/-- Whether a file inside the repository belongs to the harness that measures it. -/
def isHarness (file : String) : Bool :=
  file == "microbench.py" || file.startsWith "_pti_"

/-- Whether a directory inside the repository holds code that is only carried along. -/
def isCarried (directory : String) : Bool :=
  directory == "vendor" || directory == "build"

/-- Whether a file is one of the repository's own. -/
def isOwn (path : String) : Bool :=
  match insideRepository? path with
  | none => false
  | some parts => !parts.dropLast.any isCarried && !(parts.getLast?.any isHarness)

/-- The file name under which a profile has the built-in functions. -/
def builtinFile : String := "~"

/-- Whether a file is a compiled module or stands for the built-in functions. -/
def isCompiled (path : String) : Bool :=
  path == builtinFile || path.endsWith ".so" || path.endsWith ".pyd"

/-- The name of the module that a file defines. -/
def moduleName (path : String) : String :=
  if path == builtinFile then "builtins"
  else
    let name := (pathParts path).getLast?.getD ""
    if name.endsWith ".py" then (name.dropEnd 3).toString else name

/-- The sum of numbers, from zero and in order. -/
def sum (xs : List Float) : Float :=
  xs.foldl (· + ·) 0

namespace Profile

/-- The time in the files of a kind. -/
def timeIn (p : Profile) (kind : String → Bool) : Float :=
  sum ((p.frames.filter fun f => kind f.1).map (·.2))

/-- The time in the repository's own files. -/
def ownTime (p : Profile) : Float :=
  p.timeIn isOwn

/-- The time in built-in functions and compiled modules. -/
def compiledTime (p : Profile) : Float :=
  p.timeIn isCompiled

/-- The modules outside the repository, each once. -/
def otherModules (p : Profile) : List String :=
  ((p.frames.filter fun f => !isOwn f.1).map fun f => moduleName f.1).eraseDups

/-- The time in each module outside the repository. -/
def otherTimes (p : Profile) : List (String × Float) :=
  p.otherModules.map fun m => (m, p.timeIn fun path => !isOwn path && moduleName path == m)

/-- A time as a share of the total; nothing is a share of no time. -/
def share (p : Profile) (time : Float) : Float :=
  if p.total == 0 then 0 else time / p.total

end Profile

end Justfile.Survey
