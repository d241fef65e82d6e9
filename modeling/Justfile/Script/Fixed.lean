import Justfile.Shell.Function

/-!
# Functions of every script

Functions that do not depend on the justfile: printing, paths, error messages, overriding of
variables, and the usage message.
-/

namespace Justfile.Script

open Shell

/-- An echo that prints its arguments as they are. -/
def echoFunction : String :=
  define "echo" r#"  if [ "${#}" -gt 0 ]; then
    printf "%s\n" "${@}"
  else
    printf "\n"
  fi
"#

/-- The absolute path of a file or directory. -/
def realpathFunction : String :=
  define "realpath" r#"  # The methods to replicate it get increasingly error-prone
  # TODO: improve
  if type -P realpath > /dev/null 2>&1; then
    "$(type -P realpath)" "${1}"
  elif type python3 > /dev/null 2>&1; then
    python3 -c 'import os.path, sys; print(os.path.realpath(sys.argv[1]))' "${1}"
  elif type python > /dev/null 2>&1; then
    python -c 'import os.path, sys; print os.path.realpath(sys.argv[1])' "${1}"
  elif [ -f "${1}" ] && ! [ -z "$(dirname "${1}")" ]; then
    # We assume the directory exists. For our uses, it always does
    echo "$(
      cd "$(dirname "${1}")";
      pwd -P
    )/$(
      basename "${1}"
    )"
  elif [ -f "${1}" ]; then
    pwd -P
  elif [ -d "${1}" ]; then
  (
    cd "${1}"
    pwd -P
  )
  else
    echo "${1}"
  fi
"#

/-- Prints an error message. -/
def errorFunction : String :=
  define "echo_error" r#"  echo "${RED}error${NOCOLOR}: ${BOLD}${1}${NOCOLOR}" >&2
"#

/-- Reports the failure of a recipe and ends the script. -/
def recipeErrorFunction : String :=
  define "recipe_error" r#"  STATUS="${?}"
  if [ -z "${2:-}" ]; then
      echo_error "Recipe "'`'"${1}"'`'" failed with exit code ${STATUS}"
  else
      echo_error "Recipe "'`'"${1}"'`'" failed on line ${2} with exit code ${STATUS}"
  fi
  exit "${STATUS}"
"#

/-- Prints a line of a recipe before it runs. -/
def echoLineFunction : String :=
  define "echo_recipe_line" r#"  echo "${BOLD}${1}${NOCOLOR}" >&2
"#

/-- Overrides a variable from the command line. -/
def setVariableFunction : String :=
  define "set_var" r#"  export "VAR_${1}=${2}"
  export "OVERRIDE_VAR_${1}=true"
  HAS_RUN_assign_variables=
  assign_variables || exit "${?}"
"#

/-- Prints the names of the recipes, sorted or in the order of the justfile. -/
def summaryFunction (recipes sorted : List String) : String :=
  let printing := if recipes.isEmpty then "echo 'Justfile contains no recipes.' >&2"
    else
      "if [ \"${SORTED}\" = \"true\" ]; then\n    printf \"%s \" " ++ " ".intercalate sorted ++
      "\n  else\n    printf \"%s \" " ++ " ".intercalate recipes ++ "\n  fi\n  echo\n"
  define "summarizefn" (r#"  while [ "$#" -gt 0 ]; do
    case "${1}" in
    -u|--unsorted)
      SORTED="false"
      ;;
    esac
    shift
  done

  "# ++ printing ++ "\n")

/-- Prints how the script is used. -/
def usageFunction (version : String) : String :=
  define "usage" (r#"  cat <<EOF
${GREEN}just.sh${NOCOLOR} "# ++ version ++ r#"
Jacob Strieb
    Auto-generated from a Justfile by just.sh - https://github.com/jstrieb/just.sh

${YELLOW}USAGE:${NOCOLOR}
    ./just.sh [FLAGS] [OPTIONS] [ARGUMENTS]...

${YELLOW}FLAGS:${NOCOLOR}
        ${GREEN}--choose${NOCOLOR}      Select one or more recipes to run using a binary. If ${TICK}--chooser${TICK} is not passed the chooser defaults to the value of ${DOLLAR}JUST_CHOOSER, falling back to ${TICK}fzf${TICK}
        ${GREEN}--dump${NOCOLOR}        Print justfile
        ${GREEN}--evaluate${NOCOLOR}    Evaluate and print all variables. If a variable name is given as an argument, only print that variable's value.
        ${GREEN}--init${NOCOLOR}        Initialize new justfile in project root
    ${GREEN}-l, --list${NOCOLOR}        List available recipes and their arguments
        ${GREEN}--summary${NOCOLOR}     List names of available recipes
    ${GREEN}-u, --unsorted${NOCOLOR}    Return list and summary entries in source order
    ${GREEN}-h, --help${NOCOLOR}        Print help information
    ${GREEN}-V, --version${NOCOLOR}     Print version information

${YELLOW}OPTIONS:${NOCOLOR}
        ${GREEN}--chooser <CHOOSER>${NOCOLOR}           Override binary invoked by ${TICK}--choose${TICK}
        ${GREEN}--list-heading <TEXT>${NOCOLOR}         Print <TEXT> before list
        ${GREEN}--list-prefix <TEXT>${NOCOLOR}          Print <TEXT> before each list item
        ${GREEN}--set <VARIABLE> <VALUE>${NOCOLOR}      Override <VARIABLE> with <VALUE>
        ${GREEN}--shell <SHELL>${NOCOLOR}               Invoke <SHELL> to run recipes
        ${GREEN}--shell-arg <SHELL-ARG>${NOCOLOR}       Invoke shell with <SHELL-ARG> as an argument

${YELLOW}ARGS:${NOCOLOR}
    ${GREEN}<ARGUMENTS>...${NOCOLOR}    Overrides and recipe(s) to run, defaulting to the first recipe in the justfile
EOF
"#)

/-- Prints how the script is used after a wrong call. -/
def wrongUsageFunction : String :=
  define "err_usage" r#"  cat <<EOF >&2
USAGE:
    ./just.sh [FLAGS] [OPTIONS] [ARGUMENTS]...

For more information try ${GREEN}--help${NOCOLOR}
EOF
"#

end Justfile.Script
