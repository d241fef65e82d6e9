import Justfile.Shell.Word

/-!
# Shell functions and variables

The text of function definitions and of references to variables.
-/

namespace Justfile.Shell

/-- A function definition with the lines of its body, each ended by a line feed. -/
def define (name body : String) : String :=
  name ++ "() \x7b\n" ++ body ++ "\x7d"

/-- The value of a variable, or nothing if it is not set, between double quotes. -/
def orEmpty (name : String) : String :=
  "\"$\x7b" ++ name ++ ":-\x7d\""

/-- The value of a variable between double quotes, without regard to quotes in its name. -/
def valueText (name : String) : String :=
  "\"$\x7b" ++ name ++ "\x7d\""

/-- Lines joined by line feeds. -/
def lines (ls : List String) : String :=
  "\n".intercalate ls

end Justfile.Shell
