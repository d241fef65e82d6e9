import Justfile.Failure
import Justfile.Tree.Expr

/-!
# Recipes

A recipe has parameters, dependencies that run before or after it, and a body of lines. Required
parameters stand before those with a default; a variadic parameter takes the remaining arguments.
-/

namespace Justfile

/-- A parameter of a recipe; exported ones reach the environment of its commands. -/
structure Parameter where
  exported : Bool
  name : String
  default : Option Expr
  deriving DecidableEq

/-- How many arguments a variadic parameter takes: any number, or at least one. -/
inductive Arity where
  | star
  | plus
  deriving DecidableEq

/-- A parameter that takes the remaining arguments. -/
structure Variadic where
  arity : Arity
  param : Parameter
  deriving DecidableEq

/-- A parameter of either kind. -/
inductive Param where
  | plain (p : Parameter)
  | variadic (v : Variadic)
  deriving DecidableEq

namespace Param

/-- The name, default and export mark of a parameter of either kind. -/
def base : Param → Parameter
  | .plain p => p
  | .variadic v => v.param

/-- Whether a parameter takes the remaining arguments. -/
def isVariadic : Param → Bool
  | .plain _ => false
  | .variadic _ => true

end Param

/-- Another recipe to run, with arguments. -/
structure Dependency where
  name : String
  args : List Expr
  deriving DecidableEq

/-- A piece of a line: text, or an interpolated expression. -/
inductive Fragment where
  | text (s : String)
  | interpolation (e : Expr)
  deriving DecidableEq

/-- A line of a recipe's body. Its lead holds `@` if it is not to be echoed (or only it is) and
`-` if its failure is ignored. -/
structure Line where
  lead : Option String
  parts : List Fragment
  deriving DecidableEq

/-- A recipe. -/
structure Recipe where
  echo : Bool
  name : String
  parameters : List Parameter
  variadic : Option Variadic
  before : List Dependency
  after : List Dependency
  body : List Line
  deriving DecidableEq

namespace Recipe

/-- How many parameters stand before the first one with a default. -/
def required (r : Recipe) : Nat :=
  (r.parameters.takeWhile fun p => p.default.isNone).length

/-- How many parameters there are from the first one with a default on. -/
def defaulted (r : Recipe) : Nat :=
  r.parameters.length - r.required

/-- All parameters in order. -/
def params (r : Recipe) : List Param :=
  r.parameters.map .plain ++ (r.variadic.map .variadic).toList

/-- A variadic parameter after one with a default needs a default itself. -/
def check (r : Recipe) : Except Failure Unit :=
  match r.variadic with
  | some v =>
    if v.param.default.isNone && r.defaulted != 0 then throw (.variadicNeedsDefault r.name)
    else pure ()
  | none => pure ()

/-- The first characters of the body's first line, if it starts with text. -/
def opening? (r : Recipe) : Option String :=
  match r.body with
  | { parts := .text s :: _, .. } :: _ => some s
  | _ => none

/-- A recipe whose body is a program of its own, to be run by the interpreter it names. -/
def isShebang (r : Recipe) : Bool :=
  match r.opening? with
  | some s => s.startsWith "#!"
  | none => false

end Recipe

instance : ToDatum Parameter where
  toDatum p :=
    .record "Parameter"
      [("env_var", .flag p.exported), ("name", .text p.name), ("value", toDatum p.default)]

/-- The kind of record that shows a variadic parameter. -/
def Arity.kind : Arity → String
  | .star => "VarStar"
  | .plus => "VarPlus"

instance : ToDatum Variadic where
  toDatum v := .record v.arity.kind [("param", toDatum v.param)]

instance : ToDatum Param where
  toDatum
    | .plain p => toDatum p
    | .variadic v => toDatum v

instance : ToDatum Dependency where
  toDatum d := .record "Dependency" [("name", .text d.name), ("default_args", toDatum d.args)]

instance : ToDatum Fragment where
  toDatum
    | .text s => .text s
    | .interpolation e => .record "Interpolation" [("expression", toDatum e)]

instance : ToDatum Line where
  toDatum l := .record "Line" [("prefix", toDatum l.lead), ("data", toDatum l.parts)]

/-- The fields of a recipe that are given, without those that are counted. -/
def Recipe.fields (r : Recipe) : List (String × Datum) :=
  [("echo", .flag r.echo), ("name", .text r.name), ("parameters", toDatum r.parameters),
    ("variadic", toDatum r.variadic), ("before_dependencies", toDatum r.before),
    ("after_dependencies", toDatum r.after), ("body", toDatum r.body)]

/-- The fields of a recipe that count its parameters. -/
def Recipe.counts (r : Recipe) : List (String × Datum) :=
  [("num_non_eq_params", .number r.required), ("num_eq_params", .number r.defaulted)]

instance : ToDatum Recipe where
  toDatum r := .record "Recipe" (r.fields ++ r.counts)

end Justfile
