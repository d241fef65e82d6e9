import Justfile.Datum

/-!
# Expressions

Values of variables, parameters and interpolations. A tree that was built by hand may have data
at places where an expression or a comparison belongs; `Expr.Proper` says that it has none.
-/

namespace Justfile

/-- The comparisons a conditional can make. -/
inductive Comparison where
  | equal
  | unequal
  | matching
  deriving DecidableEq

namespace Comparison

/-- The comparison as written in a justfile. -/
def symbol : Comparison → String
  | .equal => "=="
  | .unequal => "!="
  | .matching => "=~"

/-- The kind of record that shows a comparison. -/
def kind : Comparison → String
  | .equal => "Eq"
  | .unequal => "Neq"
  | .matching => "RegexEq"

/-- The comparison that a kind of record shows. -/
def ofKind? : String → Option Comparison
  | "Eq" => some .equal
  | "Neq" => some .unequal
  | "RegexEq" => some .matching
  | _ => none

end Comparison

/-- Expressions of a justfile. -/
inductive Expr where
  /-- A text literal. -/
  | text (s : String)
  /-- The value of a variable or parameter. -/
  | var (name : String)
  /-- Two texts joined, `a + b`. -/
  | sum (left right : Expr)
  /-- Two paths joined, `a / b`. -/
  | path (left right : Expr)
  /-- The output of a command. -/
  | backtick (command : String)
  /-- A function call. -/
  | call (name : String) (args : List Expr)
  /-- A function named without an argument list; the reader never builds it. -/
  | bareCall (name : String)
  /-- `if left op right { yes } else { no }`. -/
  | cond (op : Comparison) (left right yes no : Expr)
  /-- A conditional whose test is no comparison; the reader never builds it. -/
  | looseCond (test : Datum) (yes no : Expr)
  /-- A datum that is no expression; the reader never builds it. -/
  | stray (datum : Datum)
  deriving Inhabited

namespace Expr

mutual

/-- No data stand at places of expressions and comparisons, and every call has arguments. -/
def Proper : Expr → Prop
  | .text _ => True
  | .var _ => True
  | .sum left right => left.Proper ∧ right.Proper
  | .path left right => left.Proper ∧ right.Proper
  | .backtick _ => True
  | .call _ args => AllProper args
  | .bareCall _ => False
  | .cond _ left right yes no => left.Proper ∧ right.Proper ∧ yes.Proper ∧ no.Proper
  | .looseCond _ _ _ => False
  | .stray _ => False

/-- All expressions of a list are proper. -/
def AllProper : List Expr → Prop
  | [] => True
  | e :: rest => e.Proper ∧ AllProper rest

end

mutual

/-- Whether two expressions are the same. -/
def beq : Expr → Expr → Bool
  | .text a, .text b => a == b
  | .var a, .var b => a == b
  | .sum a b, .sum c d => beq a c && beq b d
  | .path a b, .path c d => beq a c && beq b d
  | .backtick a, .backtick b => a == b
  | .call f as, .call g bs => f == g && beqAll as bs
  | .bareCall f, .bareCall g => f == g
  | .cond o a b c d, .cond p e f g h => o == p && beq a e && beq b f && beq c g && beq d h
  | .looseCond t a b, .looseCond u c d => t == u && beq a c && beq b d
  | .stray a, .stray b => a == b
  | _, _ => false

/-- Whether two lists of expressions are the same. -/
def beqAll : List Expr → List Expr → Bool
  | [], [] => true
  | a :: as, b :: bs => beq a b && beqAll as bs
  | _, _ => false

end

mutual

/-- **The test decides equality.** -/
theorem beq_iff : ∀ a b : Expr, beq a b = true ↔ a = b
  | .text _, b => by cases b <;> simp [beq]
  | .var _, b => by cases b <;> simp [beq]
  | .sum l r, b => by cases b <;> simp [beq, beq_iff l, beq_iff r]
  | .path l r, b => by cases b <;> simp [beq, beq_iff l, beq_iff r]
  | .backtick _, b => by cases b <;> simp [beq]
  | .call _ as, b => by cases b <;> simp [beq, beqAll_iff as]
  | .bareCall _, b => by cases b <;> simp [beq]
  | .cond _ l r y n, b => by
    cases b <;> simp [beq, beq_iff l, beq_iff r, beq_iff y, beq_iff n, and_assoc]
  | .looseCond _ y n, b => by cases b <;> simp [beq, beq_iff y, beq_iff n, and_assoc]
  | .stray _, b => by cases b <;> simp [beq]

/-- The test on lists decides equality. -/
theorem beqAll_iff : ∀ as bs : List Expr, beqAll as bs = true ↔ as = bs
  | [], bs => by cases bs <;> simp [beqAll]
  | a :: as, bs => by cases bs <;> simp [beqAll, beq_iff a, beqAll_iff as]

end

instance : DecidableEq Expr := fun a b =>
  decidable_of_iff (beq a b = true) (beq_iff a b)

/-- The record that shows a comparison of two expressions. -/
def testDatum (op : Comparison) (left right : Datum) : Datum :=
  .record op.kind [("left", left), ("right", right)]

mutual

/-- An expression as plain data. -/
def datum : Expr → Datum
  | .text s => .text s
  | .var name => .record "Variable" [("name", .text name)]
  | .sum left right => .record "Sum" [("sum_1", left.datum), ("sum_2", right.datum)]
  | .path left right => .record "Div" [("div_1", left.datum), ("div_2", right.datum)]
  | .backtick command => .record "Backtick" [("command", .text command)]
  | .call name args =>
    .record "Function" [("name", .text name), ("arguments", .list (data args))]
  | .bareCall name => .record "Function" [("name", .text name), ("arguments", .null)]
  | .cond op left right yes no =>
    .record "Conditional" [("if_condition", testDatum op left.datum right.datum),
      ("then", yes.datum), ("else_then", no.datum)]
  | .looseCond test yes no =>
    .record "Conditional" [("if_condition", test), ("then", yes.datum), ("else_then", no.datum)]
  | .stray datum => datum

/-- Expressions as plain data. -/
def data : List Expr → List Datum
  | [] => []
  | e :: rest => e.datum :: data rest

end

instance : ToDatum Expr := ⟨datum⟩

end Expr

end Justfile
