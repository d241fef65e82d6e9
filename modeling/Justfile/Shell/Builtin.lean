import Justfile.Shell.Function

/-!
# Functions that expressions can call

The functions a justfile can use in its expressions, as definitions in the language of POSIX
shells. Only those that a justfile calls get into its script.
-/

namespace Justfile.Shell.Builtin

/-- A function definition, ended by a line feed. -/
def definition (name body : String) : String :=
  define name body ++ "\n"

/-- The value of the variable that the first argument names, inside a text between apostrophes. -/
def quotedParameter : String :=
  "$\x7b'\"" ++ "${1}" ++ "\"'\x7d"

/-- The name of the operating system. -/
def os : String :=
  definition "os" r#"  case "$(uname -s | tr '[:upper:]' '[:lower:]')" in
  *darwin*)
    echo "macos"
    ;;
  *linux*)
    echo "linux"
    ;;
  *windows*|*msys*)
    echo "windows"
    ;;
  *)
    echo "unknown"
    ;;
  esac
"#

/-- The family of the operating system, `windows` or `unix`. -/
def osFamily : String :=
  definition "os_family" r#"  case "$(uname -s | tr '[:upper:]' '[:lower:]')" in
  *windows*|*msys*)
    echo "windows"
    ;;
  *)
    echo "unix"
    ;;
  esac
"#

/-- The architecture of the processor. -/
def arch : String :=
  definition "arch" r#"  # Shoutout to: https://stackoverflow.com/a/45125525
  case "$(uname -m | tr '[:upper:]' '[:lower:]')" in
  *aarch64*|*armv[8-9]*)
    echo "aarch64"
    ;;
  *aarch32*|*arm*)
    echo "arm"
    ;;
  *mips*)
    echo "mips"
    ;;
  *powerpc64*|*ppc64*)
    echo "powerpc64"
    ;;
  *powerpc*|*ppc*)
    echo "powerpc"
    ;;
  *s390*)
    echo "s390x"
    ;;
  *sparc*)
    echo "sparc"
    ;;
  *86_64*)
    echo "x86_64"
    ;;
  *86*)
    echo "x86"
    ;;
  *)
    echo "unix"
    ;;
  esac
"#

/-- The value of an environment variable, or a default. -/
def envVarOrDefault : String :=
  definition "env_var_or_default" (r#"  VARSTR="$(
    sh -c 'set -u; echo ""# ++ quotedParameter ++ r#""' 2> /dev/null \
      || echo "${1}=${2}"
  )"
  echo "${VARSTR}" \
    | sed 's/^[^=][^=]*=\(.*\)$/\1/'
"#)

/-- The value of an environment variable, which must be set. -/
def envVar : String :=
  definition "env_var" (r#"  sh -c 'set -u; echo ""# ++ quotedParameter ++ r#""' 2> /dev/null || (
    echo_error "Call to function "'`env_var`'" failed: environment variable "'`'"${1}"'`'" not present"
    exit 1
  ) || exit "${?}"
"#)

/-- The directory in which the script was started. -/
def invocationDirectory : String :=
  definition "invocation_directory" r#"  realpath "${INVOCATION_DIRECTORY}"
"#

/-- The directory in which the script was started, in native form. -/
def invocationDirectoryNative : String :=
  definition "invocation_directory_native" r#"  realpath "${INVOCATION_DIRECTORY}"
"#

/-- The path of the script, as the program that runs recipes. -/
def justExecutable : String :=
  definition "just_executable" r#"  realpath "${0}"
"#

/-- The path of the script, as the file that has the recipes. -/
def justfile : String :=
  definition "justfile" r#"  realpath "${0}"
"#

/-- The directory of the script. -/
def justfileDirectory : String :=
  definition "justfile_directory" r#"  realpath "$(dirname "${0}")"
"#

/-- The SHA-256 digest of a file. -/
def sha256File : String :=
  definition "sha256_file" r#"  if type sha256sum > /dev/null 2>&1; then
    sha256sum --binary "${1}" | cut -d ' ' -f 1
  elif type shasum > /dev/null 2>&1; then
    shasum --algorithm 256 --binary "${1}" | cut -d ' ' -f 1
  elif type python3 > /dev/null 2>&1; then
    python3 -c 'from hashlib import sha256; import sys; print(sha256(sys.stdin.buffer.read()).hexdigest())' \
      < "${1}"
  elif type python > /dev/null 2>&1; then
    python -c 'from hashlib import sha256; import sys; print sha256(sys.stdin.read()).hexdigest()' \
      < "${1}"
  else
    echo_error "No sha256sum binary found"
    exit 1
  fi
"#

/-- The SHA-256 digest of a text. -/
def sha256 : String :=
  definition "sha256" r#"  if type sha256sum > /dev/null 2>&1; then
    printf "%s" "${1}" | sha256sum --binary | cut -d ' ' -f 1
  elif type shasum > /dev/null 2>&1; then
    printf "%s" "${1}" | shasum --algorithm 256 --binary | cut -d ' ' -f 1
  elif type python3 > /dev/null 2>&1; then
    printf "%s" "${1}" | \
      python3 -c 'from hashlib import sha256; import sys; print(sha256(sys.stdin.buffer.read()).hexdigest())'
  elif type python > /dev/null 2>&1; then
    printf "%s" "${1}" | \
      python3 -c 'from hashlib import sha256; import sys; print sha256(sys.stdin.read()).hexdigest()'
  else
    echo_error "No sha256sum binary found"
    exit 1
  fi
"#

/-- Random bytes in hexadecimal. -/
def randomHexBytes : String :=
  definition "random_hex_bytes" r#"  RANDOM_SOURCE="/dev/urandom"
  if ! [ -e "${RANDOM_SOURCE}" ]; then
    RANDOM_SOURCE="/dev/random"
    if [ -e "${RANDOM_SOURCE}" ]; then
      echo "${YELLOW}warning${NOCOLOR}: only pseudo-randomness available" >&2
    else
      echo_error "No randomness available"
      exit 1
    fi
  fi
  head -c "${1}" "${RANDOM_SOURCE}" \
    | od -t x1 \
    | head -n -1 \
    | cut -d ' ' -f 2- \
    | tr -d ' \n'
"#

/-- A random UUID. -/
def uuid : String :=
  randomHexBytes ++ "\n" ++ definition "uuid" r#"  (
    if [ -e /proc/sys/kernel/random/uuid ]; then
      cat /proc/sys/kernel/random/uuid
    elif type uuidgen > /dev/null 2>&1; then
      uuidgen
    elif type python3 > /dev/null 2>&1; then
      python3 -c 'import uuid; print(uuid.uuid4())'
    elif type python2 > /dev/null 2>&1; then
      python2 -c 'import uuid; print uuid.uuid4()'
    else
      VARIANT_BYTE="$(random_hex_bytes 1)"
      while ! echo "${VARIANT_BYTE}" | grep '^[89ab].$' > /dev/null; do
        VARIANT_BYTE="$(random_hex_bytes 1)"
      done
      MATCH='^\(........\)\(....\).\(...\)..\(..\)\(............\)$'
      NEW_PATTERN='\1-\2-4\3-'"${VARIANT_BYTE}"'\4-\5\n'
      random_hex_bytes 16 \
        | sed "s/${MATCH}/${NEW_PATTERN}/"
    fi 
  ) | tr '[:upper:]' '[:lower:]'
"#

/-- Ends the script with an error message. -/
def error : String :=
  definition "error" r#"  echo_error "Call to function "'`error`'" failed: ${*:-}"
  exit 1
"#

/-- Whether a path exists. -/
def pathExists : String :=
  definition "path_exists" r#"  test -e "${1}" && echo "true" || echo "false"
"#

/-- Paths joined by slashes. -/
def join : String :=
  definition "join" r#"  # No special Windows support means no support for Windows path separators
  printf "%s/" "${@}" | sed 's:/$::'
"#

/-- A text between apostrophes, with those inside escaped. -/
def quote : String :=
  definition "quote" r#"  printf "'"
  printf "%s" "${1}" | sed "s/'/'\\\\''/g"
  printf "'"
"#

/-- A text in upper case. -/
def uppercase : String :=
  definition "uppercase" r#"  echo "${1}" | tr '[:lower:]' '[:upper:]'
"#

/-- A text in lower case. -/
def lowercase : String :=
  definition "lowercase" r#"  echo "${1}" | tr '[:upper:]' '[:lower:]'
"#

/-- The definitions of all functions, by name. -/
def definitions : List (String × String) := [
  ("os", os),
  ("os_family", osFamily),
  ("arch", arch),
  ("env_var_or_default", envVarOrDefault),
  ("env_var", envVar),
  ("invocation_directory", invocationDirectory),
  ("invocation_directory_native", invocationDirectoryNative),
  ("just_executable", justExecutable),
  ("justfile", justfile),
  ("justfile_directory", justfileDirectory),
  ("sha256_file", sha256File),
  ("sha256", sha256),
  ("uuid", uuid),
  ("error", error),
  ("path_exists", pathExists),
  ("join", join),
  ("quote", quote),
  ("uppercase", uppercase),
  ("lowercase", lowercase)]

/-- The definition of a function. -/
def find? (name : String) : Option String :=
  definitions.lookup name

end Justfile.Shell.Builtin
