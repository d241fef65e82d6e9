import Justfile.Program.Platform
import Justfile.Shell.Builtin
import Justfile.Shell.Evaluate

/-!
# Functions behind expressions

Calls, conditionals and commands in expressions need shell functions. `Helpers.ofItems` finds those
of a justfile in the order in which they are first needed: first those that tell platforms apart,
then those of each item. The arguments of calls are not looked at.
-/

namespace Justfile

open Shell

/-- The function of a conditional. -/
structure TestFunction where
  name : String
  op : Comparison
  left : Word
  right : Word
  yes : Word
  no : Word

namespace TestFunction

/-- The shell command whose success decides. -/
def condition (f : TestFunction) : String :=
  match f.op with
  | .equal => "[ " ++ f.left.text ++ " = " ++ f.right.text ++ " ]"
  | .unequal => "[ " ++ f.left.text ++ " != " ++ f.right.text ++ " ]"
  | .matching => "echo " ++ f.left.text ++ " \\\n      | grep -E " ++ f.right.text ++ " > /dev/null"

/-- The lines that print the value of a branch by way of a variable. -/
def branch (name : String) (value : Word) : String :=
  "    " ++ name ++ "=" ++ value.text ++ " || exit \"${?}\"\n" ++
    "    echo " ++ (Word.valueOf name).text ++ "\n"

/-- The definition of the function. -/
def definition (f : TestFunction) : String :=
  Builtin.definition f.name
    ("  if " ++ f.condition ++ "; then\n" ++ branch "THEN_EXPR" f.yes ++ "  else\n" ++
      branch "ELSE_EXPR" f.no ++ "  fi\n")

end TestFunction

/-- A function behind expressions. -/
inductive Helper where
  | builtin (definition : String)
  | backtickError
  | test (f : TestFunction)

namespace Helper

/-- The name of the function that reports the failure of a command. -/
def backtickErrorName : String := "backtick_error"

/-- The definition of a helper. -/
def definition : Helper → String
  | .builtin definition => definition
  | .backtickError => Builtin.definition backtickErrorName r#"  STATUS="${?}"
  echo_error "Backtick failed with exit code ${STATUS}"
  exit "${STATUS}"
"#
  | .test f => f.definition

end Helper

/-- The helpers of a script by name. -/
abbrev Helpers := Table Helper

namespace Helpers

/-- The helpers with the function of a given name. -/
def addBuiltin (hs : Helpers) (name : String) : Naming Helpers :=
  match Builtin.find? name with
  | some definition => pure (hs.put name (.builtin definition))
  | none => throw (.unknownFunction name)

/-- The helpers with those that an expression needs. Conditionals come after those inside them. -/
def addExpr (hs : Helpers) : Expr → Naming Helpers
  | .sum left right => do
    let hs ← hs.addExpr left
    hs.addExpr right
  | .path left right => do
    let hs ← hs.addExpr left
    hs.addExpr right
  | .backtick _ => pure (hs.put Helper.backtickErrorName .backtickError)
  | .cond op left right yes no => do
    let hs ← hs.addExpr left
    let hs ← hs.addExpr right
    let hs ← hs.addExpr yes
    let hs ← hs.addExpr no
    let name ← cleanName (testName (.cond op left right yes no))
    let left ← evaluate left
    let right ← evaluate right
    let yes ← evaluate yes
    let no ← evaluate no
    pure (hs.put name (.test ⟨name, op, left, right, yes, no⟩))
  | .looseCond _ _ _ => throw .testNotComparison
  | .call name _ => hs.addBuiltin name
  | .bareCall name => hs.addBuiltin name
  | .text _ => pure hs
  | .var _ => pure hs
  | .stray _ => pure hs

/-- The helpers with those that several expressions need. -/
def addExprs (hs : Helpers) (es : List Expr) : Naming Helpers :=
  es.foldlM addExpr hs

end Helpers

/-- The expressions of a recipe in the order in which their helpers are needed: defaults, arguments
of dependencies, interpolations. -/
def Recipe.exprs (r : Recipe) : List Expr :=
  r.params.filterMap (·.base.default) ++ (r.before ++ r.after).flatMap (·.args) ++
    r.body.flatMap fun l => l.parts.filterMap fun
      | .interpolation e => some e
      | .text _ => none

/-- The expressions of a declaration. -/
def Declaration.exprs : Declaration → List Expr
  | .recipe r => r.exprs
  | .assignment _ value => [value]
  | .exported _ value => [value]
  | _ => []

namespace Helpers

/-- The function that the attributes of an item need to tell its platform. -/
def detector? (attributes : List String) : Option String :=
  let platforms := Platform.ofAttributes attributes
  if platforms.any fun p => p != .unix then some Platform.linux.detector
  else if platforms.isEmpty then none
  else some Platform.unix.detector

/-- The helpers of a justfile. -/
def ofItems (items : List Item) : Naming Helpers := do
  let hs ← (items.filterMap fun i => detector? i.attributes).foldlM addBuiltin .empty
  items.foldlM (fun hs i => hs.addExprs i.declaration.exprs) hs

end Helpers

end Justfile
