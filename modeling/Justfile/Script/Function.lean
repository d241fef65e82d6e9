import Justfile.Script.Label

/-!
# Functions of recipes

A recipe becomes a shell function. It returns at once if it has run and is not forced, takes its
arguments into variables, calls the functions of its dependencies, runs its body, calls the
functions that are to run after it, and marks itself as run. Aliases and recipes for several
platforms become functions that call others.
-/

namespace Justfile.Script

open Shell

/-- A call of another recipe's function. -/
structure Call where
  function : String
  args : List Word

/-- The text of a call. -/
def Call.text (c : Call) : String :=
  c.function ++ argText c.args

/-- A call of a dependency, and the variable that forces it to run. -/
structure Run where
  force : String
  call : Call

namespace Run

/-- A dependency before the recipe: it is forced if the recipe is. -/
def beforeText (ownForce : String) (r : Run) : String :=
  "  if [ " ++ orEmpty ownForce ++ " = \"true\" ]; then\n" ++
  "    " ++ r.force ++ "=\"true\"\n" ++
  "  fi\n" ++
  "  " ++ r.call.text ++ "\n" ++
  "  if [ " ++ orEmpty ownForce ++ " = \"true\" ]; then\n" ++
  "    " ++ r.force ++ "=\n" ++
  "  fi"

/-- A dependency after the recipe: it is always forced. -/
def afterText (r : Run) : String :=
  "  " ++ r.force ++ "=\"true\"\n" ++
  "  " ++ r.call.text ++ "\n" ++
  "  " ++ r.force ++ "="

end Run

/-- A parameter taken from a place in the argument list. -/
structure Slot where
  name : String
  place : Nat
  default : Option Word

/-- The assignments of a parameter. -/
def Slot.texts (s : Slot) : List String :=
  let place := toString s.place
  ("  " ++ s.name ++ "=" ++ orEmpty place) ::
    match s.default with
    | some value =>
      ["  if [ \"${#}\" -lt " ++ place ++ " ]; then\n    " ++ s.name ++ "=" ++ value.text ++ "\n  fi"]
    | none => []

/-- The parameter that takes the arguments after the first `skipped` ones. -/
structure Remainder where
  name : String
  skipped : Nat
  default : Option Word

/-- Lines that drop the first `count` arguments, or all if there are fewer. -/
def shiftText (count : Nat) : String :=
  let n := toString count
  "  if [ \"${#}\" -ge " ++ n ++ " ]; then\n    shift " ++ n ++
    "\n  elif [ \"${#}\" -gt 0 ]; then\n    shift \"${#}\"\n  fi"

/-- The assignments of the parameter that takes the remaining arguments. -/
def Remainder.texts (r : Remainder) : List String :=
  (if r.skipped = 0 then [] else [shiftText r.skipped]) ++
  (match r.default with
    | some value => ["  if [ \"${#}\" -lt 1 ]; then\n    set -- " ++ value.text ++ "\n  fi"]
    | none => []) ++
  ["  " ++ r.name ++ "=\"${*:-}\""]

/-- The check that a recipe has enough arguments. -/
structure Least where
  recipe : String
  count : Nat
  orMore : Bool
  labels : List Label

/-- The check that a recipe has enough arguments; none if it needs none. -/
def Least.text (l : Least) : String :=
  let count := toString l.count
  "  if [ \"${#}\" -lt " ++ count ++ " ]; then\n" ++
  "    (\n" ++
  "      echo_error 'Recipe `" ++ l.recipe ++ "`'\" got ${#} arguments but takes " ++
    (if l.orMore then "at least " else "") ++ count ++ "\"\n" ++
  "      echo \"${BOLD}usage:${NOCOLOR}\"\n" ++
  "      echo \"    ${0} \"'" ++ l.recipe ++ " '" ++ Label.join l.labels ++ "\n" ++
  "    ) >&2\n" ++
  "    exit 1\n" ++
  "  fi\n"

/-- How a recipe's function takes its arguments. -/
structure Intake where
  least : Option Least
  slots : List Slot
  remainder : Option Remainder

/-- The text of an intake. -/
def Intake.text (i : Intake) : String :=
  (i.least.elim "" Least.text) ++
    lines (i.slots.flatMap Slot.texts ++ i.remainder.elim [] Remainder.texts)

/-- A variable passed to the environment of a command. -/
structure Export where
  name : String
  value : String

/-- The part of a command that sets its environment. -/
def exportText (es : List Export) : String :=
  if es.isEmpty then ""
  else
    lines (["\\"] ++ (es.map fun e => "    \"" ++ e.name ++ "=$\x7b" ++ e.value ++ "\x7d\" \\") ++
      ["    "])

/-- The arguments of a recipe passed on to its commands. -/
structure Arguments where
  recipe : Option String
  values : List String
  remaining : Bool

/-- No arguments are passed on. -/
def Arguments.none : Arguments := ⟨Option.none, [], false⟩

/-- The text of arguments passed on. -/
def Arguments.text (a : Arguments) : String :=
  " ".intercalate ((a.recipe.map fun r => "'" ++ r ++ "'").toList ++ a.values.map valueText ++
    if a.remaining then ["\"${@}\""] else [])

/-- The variable for an interpolated value. -/
def interpolationName (i : Nat) : String :=
  "INTERP_" ++ toString i

/-- The value of an interpolated expression kept in a variable. -/
structure Interpolation where
  index : Nat
  value : Word

/-- The assignment of an interpolated value. -/
def Interpolation.text (recipe : String) (i : Interpolation) : String :=
  "  " ++ interpolationName i.index ++ "=" ++ i.value.text ++ " || recipe_error '" ++ recipe ++
    "' \"${LINENO:-}\""

/-- What happens if a command fails: nothing, the end without a message, or the end with one. -/
inductive Ending where
  | ignored
  | silent
  | reported
  deriving DecidableEq

/-- A line of a body that the default shell runs. -/
structure CommandLine where
  interpolations : List Interpolation
  command : List Word
  echoed : Bool
  exports : List Export
  arguments : Arguments
  ending : Ending

/-- The text of a line. -/
def CommandLine.texts (recipe : String) (l : CommandLine) : List String :=
  let command := joinText l.command
  let call := "    " ++ command ++ " " ++ l.arguments.text
  l.interpolations.map (Interpolation.text recipe) ++
  (if l.echoed then ["  echo_recipe_line " ++ command] else []) ++
  ["  env " ++ exportText l.exports ++ "\"${DEFAULT_SHELL}\" ${DEFAULT_SHELL_ARGS} \\"] ++
  match l.ending with
  | .ignored => [call ++ " \\", "    || true"]
  | .silent => [call]
  | .reported => [call ++ " \\", "    || recipe_error \"" ++ recipe ++ "\" \"${LINENO:-}\""]

/-- A body that is written to a file and run by the interpreter it names. -/
structure BodyFile where
  interpolations : List Interpolation
  content : List Word
  shown : Bool
  exports : List Export
  arguments : Arguments
  reported : Bool

/-- The text of a body that is run from a file. -/
def BodyFile.text (recipe : String) (f : BodyFile) : String :=
  "  TEMPFILE=\"$(mktemp)\"\n  touch \"${TEMPFILE}\"\n  chmod +x \"${TEMPFILE}\"" ++
  String.join (f.interpolations.map fun i => "\n" ++ i.text recipe) ++
  "\n  echo " ++ joinText f.content ++ " > \"${TEMPFILE}\"" ++
  (if f.shown then "\n  cat \"${TEMPFILE}\" >&2" else "") ++
  "\n  env " ++ exportText f.exports ++ "\"${TEMPFILE}\" " ++ f.arguments.text ++ " " ++
  (if f.reported then "\\\n    || recipe_error \"" ++ recipe ++ "\"" else "") ++
  "\n  rm \"${TEMPFILE}\" "

/-- The body of a recipe's function. -/
inductive Body where
  | commands (ls : List CommandLine)
  | file (f : BodyFile)

/-- The text of a body. -/
def Body.text (recipe : String) : Body → String
  | .commands ls => lines (ls.flatMap (CommandLine.texts recipe))
  | .file f => f.text recipe

/-- The function of a recipe. -/
structure RecipeFunction where
  recipe : String
  name : String
  hasRun : String
  force : String
  intake : Option Intake
  before : List Run
  changesDirectory : Bool
  body : Body
  after : List Run

/-- The text of a recipe's function. -/
def RecipeFunction.text (f : RecipeFunction) : String :=
  define f.name <|
    "  # Recipe setup and pre-recipe dependencies\n" ++
    "  test -z " ++ orEmpty f.hasRun ++ " \\\n" ++
    "    || test " ++ orEmpty f.force ++ " = \"true\" \\\n" ++
    "    || return 0" ++
    f.intake.elim "" (fun i => "\n\n" ++ i.text) ++
    (if f.before.isEmpty then "" else "\n\n" ++ lines (f.before.map (Run.beforeText f.force))) ++
    (if f.changesDirectory then
      "\n\n  OLD_WD=\"$(pwd)\"\n  cd \"${INVOCATION_DIRECTORY}\""
    else "") ++
    "\n\n  # Recipe body\n" ++
    f.body.text f.recipe ++
    "\n\n  # Post-recipe dependencies and teardown\n" ++
    (if f.changesDirectory then "  cd \"${OLD_WD}\"\n" else "") ++
    (if f.after.isEmpty then "" else "\n" ++ lines (f.after.map Run.afterText) ++ "\n\n") ++
    "  if [ -z " ++ orEmpty f.force ++ " ]; then\n" ++
    "    " ++ f.hasRun ++ "=\"true\"\n" ++
    "  fi\n"

/-- The function of an alias. -/
structure AliasFunction where
  name : String
  target : String

/-- The text of an alias. -/
def AliasFunction.text (f : AliasFunction) : String :=
  define f.name ("  " ++ f.target ++ " \"$@\"\n")

/-- A branch of a dispatcher. -/
structure Branch where
  detector : String
  platform : String
  function : String

/-- The function that chooses among the recipes of one name. -/
structure Dispatcher where
  recipe : String
  name : String
  branches : List Branch

/-- The text of a branch after the word that starts it. -/
def Branch.text (b : Branch) (word : String) : String :=
  "  " ++ word ++ " [ \"$(" ++ b.detector ++ ")\" = '" ++ b.platform ++ "' ]; then\n    " ++
    b.function

/-- The text of a dispatcher. -/
def Dispatcher.text (d : Dispatcher) : String :=
  let branches := match d.branches with
    | [] => []
    | b :: rest => b.text "if" :: rest.map fun b => b.text "elif"
  define d.name <|
    lines branches ++
    "\n  else\n    echo_error \"Justfile does not contain recipe \"'`" ++ d.recipe ++ "`.'\n  fi\n"

/-- What stands in the section of recipes. -/
inductive Entry where
  | recipe (f : RecipeFunction)
  | comment (s : String)
  | alias (f : AliasFunction)
  | dispatcher (d : Dispatcher)

/-- The text of an entry. -/
def Entry.text : Entry → String
  | .recipe f => f.text
  | .comment s => "# " ++ s
  | .alias f => f.text
  | .dispatcher d => d.text

end Justfile.Script
