import Justfile.Digest
import Justfile.Shell.Names
import Justfile.Shell.Word
import Justfile.Tree.Expr

/-!
# Expressions as shell words

`evaluate` gives the word that has the value of an expression. Variables and functions get their
shell names on the way, from left to right, arguments before the function they belong to.
-/

namespace Justfile.Shell

/-- The name of the function that a conditional becomes: it has the digest of the conditional. -/
def testName (e : Expr) : String :=
  "if_" ++ Digest.short e.datum.display

mutual

/-- The word that has the value of an expression. -/
def evaluate : Expr → Naming Word
  | .text s => pure (.literal s)
  | .var name => .valueOf <$> cleanVariable name
  | .sum left right => do
    let left ← evaluate left
    let right ← evaluate right
    pure (.append left right)
  | .path left right => do
    let left ← evaluate left
    let right ← evaluate right
    pure (.append left (.append .slash right))
  | .backtick command => pure (.command command)
  | .call name args => do
    let args ← evaluateAll args
    let name ← cleanName name
    pure (.call name args)
  | .bareCall name => do
    let name ← cleanName name
    pure (.call name [])
  | .cond op left right yes no => .test <$> cleanName (testName (.cond op left right yes no))
  | .looseCond test yes no => .test <$> cleanName (testName (.looseCond test yes no))
  | .stray datum => throw (.notAnExpression datum)

/-- The words that have the values of expressions. -/
def evaluateAll : List Expr → Naming (List Word)
  | [] => pure []
  | e :: rest => do
    let w ← evaluate e
    let ws ← evaluateAll rest
    pure (w :: ws)

end

end Justfile.Shell
