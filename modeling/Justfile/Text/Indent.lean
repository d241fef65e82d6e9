import Justfile.Text.Blank
import Justfile.Text.Lines

/-!
# Common indentation

Text literals over several lines are written indented; `dedent` takes the indentation away that
all their lines share.
-/

namespace Justfile.Text

/-- The longest start that two texts share. -/
def sharedStart : List Char → List Char → List Char
  | a :: as, b :: bs => if a = b then a :: sharedStart as bs else []
  | _, _ => []

/-- The longest start that all texts of a list share; empty for the empty list. -/
def commonStart : List (List Char) → List Char
  | [] => []
  | l :: ls => ls.foldl sharedStart l

/-- A text without one leading line feed and, if it ends in two line feeds, without the last. -/
def trimEnds (s : List Char) : List Char :=
  let s := match s with
    | '\n' :: rest => rest
    | _ => s
  if ['\n', '\n'].isSuffixOf s then s.dropLast else s

/-- Removes the blanks with which all non-blank lines start. Lines that do not have the common
start become empty. A text without common indentation only loses what `trimEnds` removes. -/
def dedent (s : List Char) : List Char :=
  let s := trimEnds s
  let lines := splitLines s
  let start := commonStart (lines.filter fun l => !l.all isBlank)
  let indent := start.takeWhile isBlank
  if indent.isEmpty then s
  else
    joinRows (lines.map fun l => if start.isPrefixOf l then l.drop indent.length else []) ++ ['\n']

end Justfile.Text
