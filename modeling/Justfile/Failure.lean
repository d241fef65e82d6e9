import Justfile.Datum

/-!
# Why a justfile is refused

Every way in which reading or compiling a justfile can fail, and the message for each.
-/

namespace Justfile

/-- The causes of a refusal. -/
inductive Failure where
  /-- The text is no justfile; the place is the furthest one any rule got to. -/
  | unreadable (line column : Nat)
  /-- A variadic parameter without default after parameters with defaults. -/
  | variadicNeedsDefault (recipe : String)
  /-- A setting is given twice. -/
  | settingRepeated (setting : String)
  /-- A setting asks for a Windows shell. -/
  | windowsUnsupported
  /-- The shell setting names a shell without arguments. -/
  | shellTooShort
  /-- A function that scripts have no definition for. -/
  | unknownFunction (name : String)
  /-- Two recipes of one name for the same platform. -/
  | recipeRepeated
  /-- A datum that is no expression was to be evaluated. -/
  | notAnExpression (datum : Datum)
  /-- A datum that is no expression was to be written. -/
  | notWritable (datum : Datum)
  /-- A conditional whose test is no comparison was to be written. -/
  | testNotWritable
  /-- A conditional whose test is no comparison was to be compiled. -/
  | testNotComparison
  /-- Shell texts are quoted by apostrophes or double quotes only. -/
  | badQuote
  /-- A line does not fit into its box. -/
  | lineTooLong (line : String) (limit : Int)
  deriving DecidableEq

/-- The message of a failure. -/
def Failure.message : Failure → String
  | .unreadable line column => toString line ++ ":" ++ toString column
  | .variadicNeedsDefault recipe =>
    "Variadic following parameters with default values must have default values in \"" ++ recipe ++
      "\""
  | .settingRepeated setting => "Setting " ++ setting ++ " has already been set"
  | .windowsUnsupported => "Windows not yet supported"
  | .shellTooShort => "`shell` setting must have at least two elements."
  | .unknownFunction _ => ""
  | .recipeRepeated => "No duplicate recipes!"
  | .notAnExpression datum => "Unexpected expression type " ++ datum.display
  | .notWritable datum => "Unexpected expression type <class '" ++ datum.typeName ++ "'>."
  | .testNotWritable => "Invalid conditional"
  | .testNotComparison => ""
  | .badQuote => "Expecting single or double quotes!"
  | .lineTooLong line limit =>
    "Line has length " ++ toString line.length ++ " > " ++ toString limit ++ ":\n" ++ line

end Justfile
