import Justfile.Shell.Function
import Justfile.Tree.Recipe
import Justfile.Tree.Source

/-!
# Labels of parameters

Lists of recipes and usage messages show the parameters of a recipe with colours: a star or plus
for a variadic one, a dollar sign for an exported one, its name, and its default as written in the
justfile.
-/

namespace Justfile.Script

open Shell

/-- A parameter as it is shown. -/
structure Label where
  arity : Option Arity
  exported : Bool
  name : String
  default : Option String

namespace Label

/-- The label of a parameter. -/
def ofParam (p : Param) : Except Failure Label := do
  let arity := match p with
    | .plain _ => none
    | .variadic v => some v.arity
  let default ← match p.base.default with
    | some e => some <$> e.source 0
    | none => pure none
  pure ⟨arity, p.base.exported, p.base.name, default⟩

/-- Text in a colour, as parts of one word. -/
def coloured (colour inside : String) : String :=
  valueText colour ++ inside ++ valueText "NOCOLOR"

/-- The star or plus of a variadic parameter. -/
def arityText : Option Arity → String
  | none => ""
  | some .star => coloured "PINK" "'*'"
  | some .plus => coloured "PINK" "'+'"

/-- A label as part of a word. -/
def text (l : Label) : String :=
  arityText l.arity ++ (if l.exported then "'$'" else "") ++ coloured "CYAN" (quote l.name) ++
    match l.default with
    | some source => "'='" ++ coloured "GREEN" (quote source)
    | none => ""

/-- Labels with a blank between each two, as part of a word. -/
def join (ls : List Label) : String :=
  "' '".intercalate (ls.map text)

end Label

end Justfile.Script
