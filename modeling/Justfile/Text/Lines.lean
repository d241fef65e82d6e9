/-!
# Lines of a text

Two ways to cut a text into lines. `rows` cuts at line feeds only and keeps an empty last row, so
that joining gives the text back. `splitLines` cuts at every line boundary of Unicode, takes a
carriage return with its line feed as one boundary, and has no empty last line.
-/

namespace Justfile.Text

/-- The characters that end a line. -/
def isLineBreak (c : Char) : Bool :=
  let n := c.toNat
  (10 ≤ n && n ≤ 13) || (28 ≤ n && n ≤ 30) || n == 0x85 || n == 0x2028 || n == 0x2029

/-- The lines of `cs`, the first of which starts with the characters of `line`, last one first. -/
def splitLinesFrom (line : List Char) : List Char → List (List Char)
  | [] => if line.isEmpty then [] else [line.reverse]
  | '\r' :: '\n' :: cs => line.reverse :: splitLinesFrom [] cs
  | c :: cs =>
    if isLineBreak c then line.reverse :: splitLinesFrom [] cs else splitLinesFrom (c :: line) cs

/-- The lines of a text without their ends. -/
def splitLines (cs : List Char) : List (List Char) :=
  splitLinesFrom [] cs

/-- The rows of `cs`, the first of which starts with the characters of `row`, last one first. -/
def rowsFrom (row : List Char) : List Char → List (List Char)
  | [] => [row.reverse]
  | c :: cs => if c = '\n' then row.reverse :: rowsFrom [] cs else rowsFrom (c :: row) cs

/-- What stands before, between and after the line feeds of a text. -/
def rows (cs : List Char) : List (List Char) :=
  rowsFrom [] cs

/-- `rows` on strings. -/
def rowsString (s : String) : List String :=
  (rows s.toList).map String.ofList

/-- Lines joined by line feeds. -/
def joinRows : List (List Char) → List Char
  | [] => []
  | [l] => l
  | l :: ls => l ++ '\n' :: joinRows ls

/-- The line ends `\r\n` and `\r` written as `\n`. -/
def unifyLineEnds : List Char → List Char
  | [] => []
  | '\r' :: '\n' :: cs => '\n' :: unifyLineEnds cs
  | '\r' :: cs => '\n' :: unifyLineEnds cs
  | c :: cs => c :: unifyLineEnds cs

/-- The line number and the column, both from zero, of the place after the first `pos`
characters. Only line feeds start a new line here. -/
def place (pos : Nat) (cs : List Char) : Nat × Nat :=
  (cs.take pos).foldl (fun (line, col) c => if c = '\n' then (line + 1, 0) else (line, col + 1))
    (0, 0)

end Justfile.Text
