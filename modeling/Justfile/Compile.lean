import Justfile.Parsing.Parse
import Justfile.Script.OfProgram

/-!
# Compiling a justfile

* `compileItems`: the script of a list of items.
* `compile`: the script of a justfile.
-/

namespace Justfile

open Shell

/-- What compiling gives: a script, or why there is none, and the warnings on the way. -/
structure Report where
  warnings : List Warning
  script : Except Failure String

/-- One warning for each comment. -/
def commentWarnings (items : List Item) : List Warning :=
  items.filterMap fun i => match i.declaration with
    | .comment _ => some .commentsMove
    | _ => none

/-- The script of a list of items; `justfile` is the text they were read from. -/
def compileItems (edition : Edition) (outfile justfile : String) (items : List Item) : Report :=
  match (Program.ofItems items).run.run .empty with
  | (.error f, _) => ⟨[], .error f⟩
  | (.ok p, names) =>
    match ((Script.ofProgram edition outfile justfile p).run.run names).1 with
    | .error f => ⟨p.warnings, .error f⟩
    | .ok s => ⟨p.warnings ++ commentWarnings items, .ok s.text⟩

/-- The script of a justfile. -/
def compile (edition : Edition) (outfile justfile : String) : Report :=
  match parse justfile with
  | .error f => ⟨[], .error f⟩
  | .ok items => compileItems edition outfile justfile items

end Justfile
