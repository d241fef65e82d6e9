import Justfile.Script.Label
import Justfile.Digest
import Justfile.Text.Blank

/-!
# Functions that show the justfile

The script can list its targets, print the justfile it was made from, print the values of its
variables, and let the user choose a target.
-/

namespace Justfile.Script

open Shell

/-- A target with what is shown about it. -/
structure Listed where
  target : String
  labels : List Label
  doc : Option String

namespace Listed

/-- The parameters of a target, as part of a word. -/
def labelText (ls : List Label) : String :=
  if ls.isEmpty then "" else "' '" ++ Label.join ls

/-- The description of a target, as part of a word. -/
def docText : Option String → String
  | none => ""
  | some s => if s.isEmpty then "" else quote (" # " ++ s)

/-- The command that shows a target. -/
def text (l : Listed) : String :=
  "echo \"${LIST_PREFIX}\"" ++ quote l.target ++ labelText l.labels ++ "\"${BLUE}\"" ++
    docText l.doc ++ "\"${NOCOLOR}\""

/-- The commands that show several targets. -/
def texts (ls : List Listed) : String :=
  if ls.isEmpty then "true" else "\n    ".intercalate (ls.map text)

end Listed

/-- Lists the targets, sorted or in the order of the justfile. -/
def listFunction (sorted unsorted : List Listed) : String :=
  define "listfn" (r#"  while [ "$#" -gt 0 ]; do
    case "${1}" in
    --list-heading)
      shift
      LIST_HEADING="${1}"
      ;;

    --list-prefix)
      shift
      LIST_PREFIX="${1}"
      ;;

    -u|--unsorted)
      SORTED="false"
      ;;
    esac
    shift
  done

  printf "%s" "${LIST_HEADING}"
  if [ "${SORTED}" = "true" ]; then 
    "# ++ Listed.texts sorted ++ r#"
  else
    "# ++ Listed.texts unsorted ++ r#"
  fi
"#)

/-- Prints the justfile. The end mark is a digest, so that no line of the justfile is one. -/
def dumpFunction (justfile : String) : String :=
  let mark := Digest.short justfile
  define "dumpfn"
    ("  cat <<\"" ++ mark ++ "\"\n" ++ Text.stripString justfile ++ "\n" ++ mark ++ "\n")

/-- A variable of the justfile and its shell name. -/
structure Variable where
  name : String
  shellName : String

namespace Variable

/-- The command that prints a variable as an assignment; names take `width` characters. -/
def echoText (width : Nat) (v : Variable) : String :=
  let blanks := String.ofList (List.replicate (width - v.name.length + 1) ' ')
  "echo '" ++ v.name ++ blanks ++ ":= \"'" ++ valueText v.shellName ++ "'\"'"

/-- The case that prints the value of a variable. -/
def caseText (v : Variable) : String :=
  v.name ++ ")\n      printf \"%s\" " ++ valueText v.shellName ++ "\n      ;;"

end Variable

/-- Prints the values of all variables, or of one. -/
def evaluateFunction (sorted inOrder : List Variable) : String :=
  let width := (inOrder.map fun v => v.name.length).foldl max 0
  let echos := if inOrder.isEmpty then "true"
    else "\n    ".intercalate (sorted.map (Variable.echoText width))
  let cases := if inOrder.isEmpty then "# No user-declared variables"
    else "\n    ".intercalate (inOrder.map Variable.caseText)
  define "evaluatefn" (r#"  assign_variables || exit "${?}"
  if [ "${#}" = "0" ]; then
    "# ++ echos ++ r#"
  else
    case "${1}" in
    "# ++ cases ++ r#"
    *)
      echo_error 'Justfile does not contain variable `'"${1}"'`.'
      exit 1
      ;;
    esac
  fi
"#)

/-- Lets the user choose a target. -/
def chooseFunction (targets : List String) : String :=
  define "choosefn" ("  echo " ++ " ".intercalate (targets.map quote) ++ r#" \
    | "${DEFAULT_SHELL}" ${DEFAULT_SHELL_ARGS} "${CHOOSER}"
"#)

end Justfile.Script
