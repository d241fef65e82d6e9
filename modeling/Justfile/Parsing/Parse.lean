import Justfile.Parsing.Continuation
import Justfile.Parsing.File

/-!
# Reading a justfile

* `parse`: the items of a justfile, or why it is refused.
* `parseTraced`: the same, with the trace of all rules that succeeded on the way.
-/

namespace Justfile

open Parsing

/-- The items of a prepared text, for any listener. -/
def Parsing.read {ω : Type} [Listener ω] (text : List Char) (t : ω) :
    Except Failure (List Item) × ω :=
  match (file (text.length + 1)).run ⟨text, 0⟩ t with
  | (.done items _ _, t') => (.ok items, t')
  | (.failed far, t') =>
    let (row, column) := Text.place far text
    (.error (.unreadable row column), t')
  | (.rejected recipe, t') => (.error (.variadicNeedsDefault recipe), t')

/-- The items of a justfile. -/
def parse (s : String) : Except Failure (List Item) :=
  (Parsing.read (prepare s.toList) ()).1

/-- The items of a justfile and the trace of the rules that succeeded. -/
def parseTraced (s : String) : Except Failure (List Item) × Trace :=
  Parsing.read (prepare s.toList) Trace.empty

end Justfile
