import Justfile.Parsing.Lexeme

/-!
# The grammar of expressions

Each rule takes the parsers for the expressions and conditionals nested in it. A nested one starts
at least one character later, so nesting is no deeper than the text is long: `expression` and
`conditional` take the depth as an argument and agree for all depths beyond that length.
-/

namespace Justfile.Parsing

open Justfile.Parsing.Parser

variable {ω : Type} [Listener ω]

/-- The test of a conditional. -/
structure Test where
  op : Comparison
  left : Expr
  right : Expr

instance : ToDatum Test where
  toDatum t := Expr.testDatum t.op (toDatum t.left) (toDatum t.right)

section Rules

variable (nested : Parser ω Expr) (chained : Parser ω Expr)

/-- The arguments of a call; a comma may follow the last one. -/
def arguments : Parser ω (List Expr) :=
  traced "function" do
    let args ← sepBy (spread nested) (spread (word ","))
    let _ ← optional (spread (word ","))
    return args

/-- A function call. -/
def callRule : Parser ω Expr := do
  let f ← name
  let _ ← word "("
  let args ← optional (spread (arguments nested))
  let _ ← word ")"
  return match args with
    | some args => .call f args
    | none => .bareCall f

/-- An expression in parentheses. -/
def parenthesized : Parser ω Expr := do
  let _ ← word "("
  let e ← spread nested
  let _ ← word ")"
  return e

/-- An operand: a call, an expression in parentheses, a command, a text literal or a variable. -/
def valueRule : Parser ω Expr :=
  traced "value"
    (callRule nested <|> parenthesized nested <|> indentedBacktick <|> backtick <|>
      .text <$> stringLiteral <|> .var <$> name)

/-- Two expressions and a comparison between them. -/
def testWith (op : Comparison) : Parser ω Test := do
  let left ← nested
  let _ ← spread (word op.symbol)
  let right ← nested
  return ⟨op, left, right⟩

/-- The test of a conditional. -/
def testRule : Parser ω Test :=
  traced "condition"
    (testWith nested .equal <|> testWith nested .unequal <|> testWith nested .matching)

/-- A conditional; its last branch may be another conditional without braces. -/
def conditionalRule : Parser ω Expr := do
  let _ ← spread (word "if")
  let test ← testRule nested
  let _ ← spread (word "\x7b")
  let yes ← nested
  let _ ← spread (word "\x7d")
  let _ ← spread (word "else")
  let no ← chained <|> (do
    let _ ← spread (word "\x7b")
    let e ← spread nested
    let _ ← spaced (word "\x7d")
    return e)
  return .cond test.op test.left test.right yes no

/-- Two paths joined; the left one may be missing. -/
def pathRule : Parser ω Expr := do
  let left ← optional (valueRule nested)
  let _ ← spread (word "/")
  let right ← nested
  return .path (left.getD (.text "")) right

/-- Two texts joined. -/
def sumRule : Parser ω Expr := do
  let left ← valueRule nested
  let _ ← spread (word "+")
  let right ← nested
  return .sum left right

/-- An expression. -/
def expressionRule : Parser ω Expr :=
  traced "expression"
    (conditionalRule nested chained <|> pathRule nested <|> sumRule nested <|> valueRule nested)

end Rules

mutual

/-- An expression with at most `depth` levels of nesting. -/
def expression (depth : Nat) : Parser ω Expr where
  run c t :=
    match depth with
    | 0 => (.failed c.pos, t)
    | depth + 1 => (expressionRule (expression depth) (conditional depth)).apply c t

/-- A conditional with at most `depth` levels of nesting. -/
def conditional (depth : Nat) : Parser ω Expr where
  run c t :=
    match depth with
    | 0 => (.failed c.pos, t)
    | depth + 1 => (conditionalRule (expression depth) (conditional depth)).apply c t

end

/-- An operand with at most `depth` levels of nesting below it. -/
def value (depth : Nat) : Parser ω Expr :=
  valueRule (expression depth)

end Justfile.Parsing
