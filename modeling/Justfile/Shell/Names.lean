import Justfile.Failure
import Justfile.Table

/-!
# Names in a script

Names of a justfile may have dashes, names of a shell may not. Dashes become underscores, and a
number is added where that would give two names the same shell name. A table remembers which shell
name stands for which name.

* `Names.clean`: the shell name for a name, and the table that knows it.
* `Naming`: computations that take shell names from a table and may fail.
-/

namespace Justfile.Shell

/-- For each shell name in use, the name that it stands for. -/
abbrev Names := Table String

namespace Names

/-- A name with underscores for dashes. -/
def dashless (name : String) : String :=
  String.ofList (name.toList.map fun c => if c = '-' then '_' else c)

/-- The shell names to try for a name, in order: its dashless form, and that form with the number
two, three and so on. -/
def candidate (base : String) : Nat → String
  | 0 => base
  | k + 1 => base ++ "_" ++ toString (k + 2)

/-- A shell name that stands for no other name. -/
def isFree (t : Names) (name shellName : String) : Bool :=
  match t.find? shellName with
  | none => true
  | some other => other == name

/-- The first free candidate from the one with number `k` on, where the one after `n` more is taken
without asking. -/
def firstFree (t : Names) (name base : String) : (n k : Nat) → String
  | 0, k => candidate base k
  | n + 1, k =>
    if t.isFree name (candidate base k) then candidate base k
    else firstFree t name base n (k + 1)

/-- The shell name for a name. Of one more candidate than there are entries one is free, so the
last need not be asked about. -/
def shellName (t : Names) (name : String) : String :=
  t.firstFree name (dashless name) t.size 0

/-- The shell name for a name, and the table with it. -/
def clean (t : Names) (name : String) : String × Names :=
  let shellName := t.shellName name
  (shellName, t.put shellName name)

end Names

/-- Computations that take names from a table and may fail. What was taken before a failure stays
taken. -/
abbrev Naming := ExceptT Failure (StateM Names)

/-- The shell name for a name. -/
def cleanName (name : String) : Naming String :=
  ExceptT.lift (modifyGet fun t => t.clean name)

/-- The shell name for a variable or parameter. -/
def cleanVariable (name : String) : Naming String :=
  cleanName ("VAR_" ++ name)

/-- The shell name for the function of a recipe or alias. -/
def cleanFunction (name : String) : Naming String :=
  cleanName ("FUN_" ++ name)

/-- A result that takes no names. -/
def Naming.ofExcept {α : Type} (r : Except Failure α) : Naming α :=
  ExceptT.mk (pure r)

end Justfile.Shell
