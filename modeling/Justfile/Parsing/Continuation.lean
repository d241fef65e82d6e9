import Justfile.Text.Blank

/-!
# Joining continued lines

Before a justfile is read, its continued lines are joined, blanks at its ends are removed, and two
line feeds are put at its end.
-/

namespace Justfile.Parsing

/-- The length of what makes a backslash before `cs` a continuation: any number of letters `s`, a
line feed, and the blanks after it. -/
def continuation? (cs : List Char) : Option Nat :=
  let letters := cs.takeWhile (· == 's')
  match cs.drop letters.length with
  | '\n' :: rest => some (letters.length + 1 + (rest.takeWhile Text.isBlank).length)
  | _ => none

/-- The text without its continuations, after skipping `skip` characters. -/
def joinFrom : (skip : Nat) → List Char → List Char
  | _, [] => []
  | skip + 1, _ :: cs => joinFrom skip cs
  | 0, c :: cs =>
    if c = '\\' then
      match continuation? cs with
      | some n => joinFrom n cs
      | none => c :: joinFrom 0 cs
    else c :: joinFrom 0 cs

/-- The text without its continuations: leftmost first, none inside another. -/
def joinContinued (cs : List Char) : List Char :=
  joinFrom 0 cs

/-- The text that the grammar is applied to. -/
def prepare (cs : List Char) : List Char :=
  Text.strip (joinContinued cs) ++ ['\n', '\n']

end Justfile.Parsing
