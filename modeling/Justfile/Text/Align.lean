/-!
# Aligned text

* `left`, `right`: a text with blanks after or before it, up to a width.
-/

namespace Justfile.Text

/-- A text at the left of a column. -/
def left (width : Nat) (s : String) : String :=
  s ++ String.ofList (List.replicate (width - s.length) ' ')

/-- A text at the right of a column. -/
def right (width : Nat) (s : String) : String :=
  String.ofList (List.replicate (width - s.length) ' ') ++ s

end Justfile.Text
