import Justfile.Program.Basic
import Justfile.Script.Entry
import Justfile.Script.Fixed
import Justfile.Script.Function
import Justfile.Script.Listing
import Justfile.Text.Box

/-!
# Scripts

A `Script` is all that the script of a justfile is made of, with every name in its shell form.
`Script.text` writes it.
-/

namespace Justfile

open Shell

/-- What a script says about its making. -/
structure Edition where
  date : String
  version : String

namespace Script

/-- The name of a file without the path before it. -/
def baseName (path : String) : String :=
  String.ofList ((path.toList.reverse.takeWhile (· != '/')).reverse)

/-- The line of the banner that says how the script was made. -/
def editionLine (edition : Edition) : String :=
  "Generated on " ++ edition.date ++ " with just.sh version " ++ edition.version ++ "."

/-- The line of the banner that names the output file. -/
def nameLine (outfile : String) : String :=
  "Run `./" ++ baseName outfile ++ " --dump` to recover the original Justfile."

/-- The heading at both ends of a script. -/
def bannerHeading (edition : Edition) (outfile : String) : String :=
  "\nThis script was auto-generated from a Justfile by just.sh.\n\n" ++ editionLine edition ++
    "\nhttps://github.com/jstrieb/just.sh\n\n" ++ nameLine outfile ++ "\n\n"

/-- The banner: this heading in a box. -/
def bannerText (edition : Edition) (outfile : String) : Except Failure String :=
  Text.heading? (bannerHeading edition outfile)

/-- A variable of the justfile and its value. -/
structure Assignment where
  name : String
  value : Word

/-- The assignment of a variable, unless it is overridden. -/
def Assignment.text (a : Assignment) : String :=
  "  if [ -z " ++ orEmpty ("OVERRIDE_" ++ a.name) ++ " ]; then\n        " ++ a.name ++ "=" ++
    a.value.text ++ " || exit \"${?}\"\n      fi"

/-- The function that assigns the variables of the justfile, once. -/
def assignText (as : List Assignment) : String :=
  let body := if as.isEmpty then "  # No user-declared variables"
    else lines (as.map Assignment.text)
  define "assign_variables" <|
    "  test -z \"${HAS_RUN_assign_variables:-}\" || return 0\n\n" ++ body ++
    "\n\n  HAS_RUN_assign_variables=\"true\"\n"

/-- Reads the file `.env`. -/
def dotenvText : String :=
  "\n# Source a `.env` file\n" ++ r#"TEMP_DOTENV="$(mktemp)"
sed 's/^/export /g' ./.env > "${TEMP_DOTENV}"
. "${TEMP_DOTENV}"
rm "${TEMP_DOTENV}"
"#

/-- The colours of messages. -/
def colourText : String :=
  "\n# Display colors\n" ++ r#"SHOW_COLOR='false'
if [ -t 1 ]; then SHOW_COLOR='true'; fi
NOCOLOR="$(test "${SHOW_COLOR}" = 'true' && printf "\033[m" || echo)"
BOLD="$(test "${SHOW_COLOR}" = 'true' && printf "\033[1m" || echo)"
RED="$(test "${SHOW_COLOR}" = 'true' && printf "\033[1m\033[31m" || echo)"
YELLOW="$(test "${SHOW_COLOR}" = 'true' && printf "\033[33m" || echo)"
CYAN="$(test "${SHOW_COLOR}" = 'true' && printf "\033[36m" || echo)"
GREEN="$(test "${SHOW_COLOR}" = 'true' && printf "\033[32m" || echo)"
PINK="$(test "${SHOW_COLOR}" = 'true' && printf "\033[35m" || echo)"
BLUE="$(test "${SHOW_COLOR}" = 'true' && printf "\033[34m" || echo)"
TICK="$(printf '%s' '`')"
DOLLAR="$(printf '%s' '$')"
"#

/-- The directory for temporary files, if it is set. -/
def tempdirText : Option SettingValue → String
  | some v => if v.isGiven then "TMPDIR=" ++ v.datum.quoted ++ "\n" else ""
  | none => ""

/-- The variables that options of the script can change. -/
def optionText (shell : String) (args : List String) : String :=
  "INVOCATION_DIRECTORY=\"$(pwd)\"\nDEFAULT_SHELL='" ++ shell ++ "'\nDEFAULT_SHELL_ARGS='" ++
    " ".intercalate args ++
    "'\nLIST_HEADING='Available recipes:\n'\nLIST_PREFIX='    '\nCHOOSER='fzf'\nSORTED='true'"

/-- The start of a script: errors end it, also inside pipes where the shell can do that. -/
def strictText : String :=
  "if sh \"set -o pipefail\" > /dev/null 2>&1; then\n  set -euo pipefail\nelse\n  set -eu\nfi\n"

end Script

/-- What a script is made of. -/
structure Script where
  version : String
  banner : String
  helpers : List Helper
  dotenv : Bool
  tempdir : Option SettingValue
  shell : String
  shellArgs : List String
  assignments : List Script.Assignment
  entries : List Script.Entry
  recipes : List String
  sortedList : List Script.Listed
  list : List Script.Listed
  justfile : String
  sortedVariables : List Script.Variable
  declared : List Script.Variable
  targets : List String
  cases : List Script.TargetCase
  default : Option Script.Default

namespace Script

/-- The section of functions behind expressions. -/
def helperText (s : Script) : String :=
  if s.helpers.isEmpty then ""
  else
    "\n\n" ++ Text.heading "Internal functions" ++ "\n\n" ++ lines (s.helpers.map (·.definition))

/-- The section of variables. -/
def variableText (s : Script) : String :=
  Text.heading "Variables" ++ "\n" ++ (if s.dotenv then dotenvText else "") ++
    "\n# User-overwritable variables (via CLI)\n" ++ tempdirText s.tempdir ++
    optionText s.shell s.shellArgs ++ "\n" ++ colourText ++ "\n" ++ assignText s.assignments

/-- The section of recipes. -/
def recipeText (s : Script) : String :=
  "\n" ++ Text.heading "Recipes" ++ "\n\n" ++ "\n\n".intercalate (s.entries.map Entry.text)

/-- The section of functions that every script has. -/
def commonText (s : Script) : String :=
  "\n" ++ Text.heading "Helper functions" ++
  "\n\n# Sane, portable echo that doesn't escape characters like \"\\n\" behind your back\n" ++
  echoFunction ++ "\n\n# realpath is a GNU coreutils extension\n" ++ realpathFunction ++ "\n\n" ++
  errorFunction ++ "\n\n" ++ recipeErrorFunction ++ "\n\n" ++ echoLineFunction ++
  "\n            \n" ++ setVariableFunction ++ "\n            \n" ++
  summaryFunction s.recipes (sortStrings s.recipes) ++ "\n\n" ++
  usageFunction s.version ++ "\n\n" ++ wrongUsageFunction ++ "\n\n" ++
  listFunction s.sortedList s.list ++ "\n\n" ++ dumpFunction s.justfile ++ "\n\n" ++
  evaluateFunction s.sortedVariables s.declared ++ "\n\n" ++ chooseFunction s.targets

/-- The text of a script. -/
def text (s : Script) : String :=
  "#!/bin/sh\n\n" ++ s.banner ++ "\n\n" ++ strictText ++ s.helperText ++ "\n\n" ++
    s.variableText ++ "\n\n" ++ s.recipeText ++ "\n\n" ++ s.commonText ++ "\n\n\n" ++
    Text.heading "Main entrypoint" ++ "\n\n" ++ entryText s.version s.cases s.default ++
    "\n\n\n" ++ s.banner ++ "\n\n"

end Script

end Justfile
