import Justfile.Failure
import Justfile.Text.Lines

/-!
# Boxes of comment lines

Headings in a script stand in boxes: a border of number signs, and between two of them the lines of
the heading, padded to the width of the border.
-/

namespace Justfile.Text

/-- How lines are padded: what ends them, how long they are, and whether longer ones are let
through. -/
structure Padding where
  terminator : String
  width : Int
  lenient : Bool

/-- The width of boxes. -/
def boxWidth : Nat := 89

/-- Lines of a box end in a number sign. -/
def Padding.box : Padding := ⟨" #", boxWidth, false⟩

/-- A line padded with blanks between its text and the terminator. -/
def padded (style : Padding) (line : String) : String :=
  let blanks := (style.width - line.length - style.terminator.length).toNat
  line ++ String.ofList (List.replicate blanks ' ') ++ style.terminator

/-- A padded line, unless it is too long already. -/
def pad (style : Padding) (line : String) : Except Failure String :=
  if line.length > style.width && !style.lenient then throw (.lineTooLong line style.width)
  else pure (padded style line)

/-- The border of a box. -/
def border : String :=
  String.ofList (List.replicate boxWidth '#')

/-- The lines of a heading as they stand in a box, before padding. -/
def headingLines (heading : String) : List String :=
  (splitLines heading.toList).map fun l => "# " ++ String.ofList l

/-- A box around padded lines. -/
def framed (rows : List String) : String :=
  border ++ "\n" ++ "\n".intercalate rows ++ "\n" ++ border

/-- A box with a heading that is known to fit. -/
def heading (s : String) : String :=
  framed ((headingLines s).map (padded .box))

/-- A box with a heading, unless one of its lines is too long. -/
def heading? (s : String) : Except Failure String :=
  framed <$> (headingLines s).mapM (pad .box)

end Justfile.Text
