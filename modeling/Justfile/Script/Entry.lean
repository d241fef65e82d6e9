import Justfile.Script.Function

/-!
# The entry point

The script reads its arguments one after the other: targets, options, and overrides of variables.
If no target was asked for it runs the first recipe.
-/

namespace Justfile.Script

open Shell

/-- What happens to the arguments after a target: all are its own, the first ones are, or none. -/
inductive Consumption where
  | all
  | some (count : Nat)
  | none
  deriving DecidableEq

/-- The lines that drop the arguments of a target, before the end of its case. -/
def Consumption.text : Consumption → String
  | .all => "break\n    "
  | .some count =>
    let n := toString count
    "if [ \"${#}\" -ge \"" ++ n ++ "\" ]; then\n      shift " ++ n ++
      "\n    elif [ \"${#}\" -gt 0 ]; then\n      shift \"${#}\"\n    fi\n    "
  | .none => ""

/-- The case of a target. -/
structure TargetCase where
  target : String
  function : String
  consumption : Consumption

/-- The text of a target's case. -/
def TargetCase.text (c : TargetCase) : String :=
  c.target ++ ")\n    shift\n    assign_variables || exit \"${?}\"\n    " ++ c.function ++
    " \"$@\"\n    RUN_DEFAULT='false'\n    " ++ c.consumption.text ++ ";;"

/-- The recipe that runs if none is asked for. If it has parameters, `least` is the number of
arguments it has to be given. -/
structure Default where
  recipe : String
  function : String
  least : Option Nat

/-- The check that the default recipe has enough arguments. -/
def Default.checkText (recipe : String) (least : Nat) : String :=
  let n := toString least
  "if [ \"${#}\" -lt \"" ++ n ++ "\" ]; then\n    echo_error 'Recipe `" ++ recipe ++
    "` cannot be used as default recipe since it requires at least " ++ n ++ " argument" ++
    (if least = 1 then "" else "s") ++ ".'\n    exit 1\n  fi\n  "

/-- The call of the default recipe. -/
def Default.text (d : Default) : String :=
  d.least.elim "" (checkText d.recipe) ++ "assign_variables || exit \"${?}\"\n  " ++ d.function ++
    " \"$@\" "

/-- The end of a script without recipes. -/
def noDefaultText : String :=
  "assign_variables || exit \"${?}\"\n  exit 1"

/-- The loop over the arguments, up to the cases of targets. -/
def loopStart : String :=
  r#"RUN_DEFAULT='true'
while [ "${#}" -gt 0 ]; do
  case "${1}" in 
  
  # User-defined recipes
  "#

/-- The cases of options up to the version. -/
def firstOptions : String :=
  r#"
  
  # Built-in flags
  -l|--list)
    shift 
    listfn "$@"
    RUN_DEFAULT="false"
    break
    ;;
    
  -f|--justfile)
    shift 2
    echo "${YELLOW}warning${NOCOLOR}: ${BOLD}-f/--justfile not implemented by just.sh${NOCOLOR}" >&2
    ;;

  --summary)
    shift
    summarizefn "$@"
    RUN_DEFAULT="false"
    break
    ;;

  --list-heading)
    shift
    LIST_HEADING="${1}"
    shift
    ;;

  --list-prefix)
    shift
    LIST_PREFIX="${1}"
    shift
    ;;

  -u|--unsorted)
    SORTED="false"
    shift
    ;;

  --shell)
    shift
    DEFAULT_SHELL="${1}"
    shift
    ;;

  --shell-arg)
    shift
    DEFAULT_SHELL_ARGS="${1}"
    shift
    ;;
    
  -V|--version)
    shift
    echo "just.sh "#

/-- The cases of the remaining options. -/
def lastOptions : String :=
  r#""
    echo
    echo "https://github.com/jstrieb/just.sh"
    RUN_DEFAULT="false"
    break
    ;;

  -h|--help)
    shift
    usage
    RUN_DEFAULT="false"
    break
    ;;

  --choose)
    shift
    assign_variables || exit "${?}"
    TARGET="$(choosefn)"
    env "${0}" "${TARGET}" "$@"
    RUN_DEFAULT="false"
    break
    ;;
    
  --chooser)
    shift
    CHOOSER="${1}"
    shift
    ;;
    
  *=*)
    assign_variables || exit "${?}"
    NAME="$(
        echo "${1}" | tr '\n' '\r' | sed 's/\([^=]*\)=.*/\1/g' | tr '\r' '\n'
    )"
    VALUE="$(
        echo "${1}" | tr '\n' '\r' | sed 's/[^=]*=\(.*\)/\1/g' | tr '\r' '\n'
    )"
    shift
    set_var "${NAME}" "${VALUE}"
    ;;

  --set)
    shift
    assign_variables || exit "${?}"
    NAME="${1}"
    shift
    VALUE="${1}"
    shift
    set_var "${NAME}" "${VALUE}"
    ;;
    
  --dump)
    RUN_DEFAULT="false"
    dumpfn "$@"
    break
    ;;
    
  --evaluate)
    shift
    RUN_DEFAULT="false"
    evaluatefn "$@"
    break
    ;;
    
  --init)
    shift
    RUN_DEFAULT="false"
    if [ -f "justfile" ]; then
      echo_error "Justfile "'`'"$(realpath "justfile")"'`'" already exists"
      exit 1
    fi
    cat > "justfile" <<EOF
default:
    echo 'Hello, world!'
EOF
    echo 'Wrote justfile to `'"$(realpath "justfile")"'`' 2>&1 
    break
    ;;

  -*)
    echo_error "Found argument '${NOCOLOR}${YELLOW}${1}${NOCOLOR}${BOLD}' that wasn't expected, or isn't valid in this context"
    echo >&2
    err_usage
    exit 1
    ;;

  *)
    assign_variables || exit "${?}"
    echo_error 'Justfile does not contain recipe `'"${1}"'`.'
    exit 1
    ;;
  esac
done

if [ "${RUN_DEFAULT}" = "true" ]; then
  "#

/-- The part of the script that reads the arguments. -/
def entryText (version : String) (cases : List TargetCase) (default : Option Default) : String :=
  loopStart ++ "\n\n  ".intercalate (cases.map TargetCase.text) ++ firstOptions ++ version ++
    lastOptions ++ default.elim noDefaultText Default.text ++ "\nfi"

end Justfile.Script
