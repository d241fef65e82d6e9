import Justfile.Failure
import Justfile.Tree.Expr

/-!
# Expressions as written in a justfile

`Expr.source` writes an expression the way a justfile has it. It shows the defaults of parameters
in lists and usage messages. A compound expression is put in parentheses where it stands alone.
-/

namespace Justfile

namespace Expr

/-- A text literal: escaped, with its double quotes escaped too. -/
def literalSource (s : String) : List Char :=
  '"' :: ((Text.escaped s.toList).flatMap (fun c => if c = '"' then ['\\', '"'] else [c]) ++ ['"'])

/-- Text that is put in parentheses at depth zero. -/
def bracketed (depth : Int) (s : List Char) : List Char :=
  if depth = 0 then '(' :: (s ++ [')']) else s

/-- The depth of the operands of an expression. The parentheses at depth zero count as a level. -/
def operandDepth (depth : Int) : Int :=
  if depth = 0 then 2 else depth + 1

/-- Two operands and the symbol between them. -/
def infixSource (left : List Char) (symbol : String) (right : List Char) : List Char :=
  left ++ ' ' :: (symbol.toList ++ ' ' :: right)

/-- A conditional from the texts of its parts. -/
def condSource (op : Comparison) (left right yes no : List Char) : List Char :=
  "if ".toList ++ infixSource left op.symbol right ++ " \x7b ".toList ++ yes ++
    " \x7d else \x7b ".toList ++ no ++ " \x7d".toList

mutual

/-- The characters of an expression at a depth of nesting. -/
def sourceChars : Expr → Int → Except Failure (List Char)
  | .text s, _ => pure (literalSource s)
  | .var name, _ => pure name.toList
  | .call name args, depth => do
    let args ← sourceArgs args (depth + 1)
    pure (name.toList ++ '(' :: (args ++ [')']))
  | .bareCall name, _ => pure (name.toList ++ ['(', ')'])
  | .backtick command, _ => pure ('`' :: (command.toList ++ ['`']))
  | .sum left right, depth => do
    let left ← sourceChars left (operandDepth depth)
    let right ← sourceChars right (operandDepth depth)
    pure (bracketed depth (infixSource left "+" right))
  | .path left right, depth => do
    let left ← sourceChars left (operandDepth depth)
    let right ← sourceChars right (operandDepth depth)
    pure (bracketed depth (infixSource left "/" right))
  | .cond op left right yes no, depth => do
    let left ← sourceChars left (operandDepth depth)
    let right ← sourceChars right (operandDepth depth)
    let yes ← sourceChars yes (operandDepth depth)
    let no ← sourceChars no (operandDepth depth)
    pure (bracketed depth (condSource op left right yes no))
  | .looseCond _ _ _, _ => throw .testNotWritable
  | .stray datum, _ => throw (.notWritable datum)

/-- The arguments of a call, separated by a comma and a blank. -/
def sourceArgs : List Expr → Int → Except Failure (List Char)
  | [], _ => pure []
  | [e], depth => sourceChars e depth
  | e :: f :: rest, depth => do
    let e ← sourceChars e depth
    let rest ← sourceArgs (f :: rest) depth
    pure (e ++ ',' :: ' ' :: rest)

end

/-- An expression as a justfile has it. Depth zero is that of an expression that stands alone. -/
def source (e : Expr) (depth : Int) : Except Failure String :=
  String.ofList <$> sourceChars e depth

end Expr

end Justfile
