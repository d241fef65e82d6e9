import Justfile.Tree.Item

/-!
# Platforms

A recipe can be meant for some platforms only. Its function is then named after them, and a
dispatcher chooses among the recipes of one name when the script runs.
-/

namespace Justfile

/-- The platforms that attributes can name. -/
inductive Platform where
  | windows
  | macos
  | linux
  | unix
  deriving DecidableEq

namespace Platform

/-- The attribute for a platform. -/
def name : Platform → String
  | .windows => "windows"
  | .macos => "macos"
  | .linux => "linux"
  | .unix => "unix"

/-- The platform that an attribute names. -/
def ofName? : String → Option Platform
  | "windows" => some .windows
  | "macos" => some .macos
  | "linux" => some .linux
  | "unix" => some .unix
  | _ => none

/-- The function that tells at run time whether a platform is the present one. -/
def detector : Platform → String
  | .unix => "os_family"
  | _ => "os"

/-- The platforms that attributes name, each once. They are taken in the order of the attributes. That is an assumption:
several platforms are a set, and in which order it goes into the name of a function is left open. -/
def ofAttributes (attributes : List String) : List Platform :=
  (attributes.filterMap ofName?).eraseDups

/-- The name of a recipe's function for some platforms. -/
def functionName (recipe : String) (platforms : List Platform) : String :=
  if platforms.isEmpty then recipe else recipe ++ "_" ++ "_".intercalate (platforms.map name)

end Platform

end Justfile
