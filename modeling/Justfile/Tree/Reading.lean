import Justfile.Tree.Item

/-!
# Trees from plain data

Syntax trees can be given as plain data. Where a datum has the shape of an expression it is read
as one; any other datum at the place of an expression is kept as a stray one.

* `Expr.ofDatum`: the expression that a datum shows.
* `Item.ofDatum?`: the item that a datum shows.
* `Datum.ofFields`: a record from named fields in any order.
-/

namespace Justfile

/-- What a datum can be taken for: itself, an expression, a list of expressions, or a
comparison. -/
structure Expr.View where
  raw : Datum
  expr : Expr
  items : Option (List Expr)
  test : Option (Comparison × Expr × Expr)

namespace Expr

/-- A datum that can be taken for nothing but itself. -/
def View.stray (datum : Datum) : View :=
  ⟨datum, .stray datum, none, none⟩

/-- The view of a named field; a missing field counts as nothing. -/
def View.field (fields : List (String × View)) (name : String) : View :=
  ((fields.find? fun f => f.1 == name).map (·.2)).getD (.stray .null)

/-- The text of a named field. -/
def View.text? (fields : List (String × View)) (name : String) : Option String :=
  match (View.field fields name).raw with
  | .text s => some s
  | _ => none

/-- The expression that a record of a kind shows, from the views of its fields. -/
def ofRecord? (kind : String) (fields : List (String × View)) : Option Expr :=
  let part (name : String) := (View.field fields name).expr
  match kind with
  | "Variable" => (View.text? fields "name").map .var
  | "Backtick" => (View.text? fields "command").map .backtick
  | "Sum" => some (.sum (part "sum_1") (part "sum_2"))
  | "Div" => some (.path (part "div_1") (part "div_2"))
  | "Function" => do
    let name ← View.text? fields "name"
    match (View.field fields "arguments").items with
    | some args => some (.call name args)
    | none => some (.bareCall name)
  | "Conditional" =>
    let test := View.field fields "if_condition"
    match test.test with
    | some (op, left, right) => some (.cond op left right (part "then") (part "else_then"))
    | none => some (.looseCond test.raw (part "then") (part "else_then"))
  | _ => none

/-- The view of a record from the views of its fields. -/
def View.ofRecord (raw : Datum) (kind : String) (fields : List (String × View)) : View :=
  let expr := (ofRecord? kind fields).getD (.stray raw)
  let test := (Comparison.ofKind? kind).map fun op =>
    (op, (View.field fields "left").expr, (View.field fields "right").expr)
  ⟨raw, expr, none, test⟩

mutual

/-- What a datum can be taken for. -/
def view : Datum → View
  | .text s => ⟨.text s, .text s, none, none⟩
  | .list items => ⟨.list items, .stray (.list items), some ((viewItems items).map (·.expr)), none⟩
  | .record kind fields => View.ofRecord (.record kind fields) kind (viewFields fields)
  | .null => .stray .null
  | .flag b => .stray (.flag b)
  | .number n => .stray (.number n)

/-- The views of the items of a list. -/
def viewItems : List Datum → List View
  | [] => []
  | d :: rest => view d :: viewItems rest

/-- The views of the fields of a record. -/
def viewFields : List (String × Datum) → List (String × View)
  | [] => []
  | (name, d) :: rest => (name, view d) :: viewFields rest

end

/-- The expression that a datum shows. -/
def ofDatum (d : Datum) : Expr :=
  (view d).expr

end Expr

namespace Datum

/-- The text of a datum that is a text. -/
def text? : Datum → Option String
  | .text s => some s
  | _ => none

/-- The flag of a datum that is a flag. -/
def flag? : Datum → Option Bool
  | .flag b => some b
  | _ => none

/-- The items of a datum that is a list. -/
def items? : Datum → Option (List Datum)
  | .list items => some items
  | _ => none

/-- The items of a list that are all texts. -/
def texts? (d : Datum) : Option (List String) := do
  (← d.items?).mapM text?

end Datum

/-- The parameter that a datum shows. -/
def Parameter.ofDatum? (d : Datum) : Option Parameter := do
  let exported ← (← d.field? "env_var").flag?
  let name ← (← d.field? "name").text?
  let value ← d.field? "value"
  some ⟨exported, name, if value = .null then none else some (Expr.ofDatum value)⟩

/-- The variadic parameter that a datum shows. -/
def Variadic.ofDatum? (d : Datum) : Option Variadic := do
  let param ← Parameter.ofDatum? (← d.field? "param")
  match d with
  | .record "VarStar" _ => some ⟨.star, param⟩
  | .record "VarPlus" _ => some ⟨.plus, param⟩
  | _ => none

/-- The dependency that a datum shows. -/
def Dependency.ofDatum? (d : Datum) : Option Dependency := do
  let name ← (← d.field? "name").text?
  let args ← (← d.field? "default_args").items?
  some ⟨name, args.map Expr.ofDatum⟩

/-- The piece of a line that a datum shows. -/
def Fragment.ofDatum? : Datum → Option Fragment
  | .text s => some (.text s)
  | .record "Interpolation" fields => do
    some (.interpolation (Expr.ofDatum (← (Datum.record "" fields).field? "expression")))
  | _ => none

/-- The line that a datum shows. -/
def Line.ofDatum? (d : Datum) : Option Line := do
  let lead ← match ← d.field? "prefix" with
    | .null => some none
    | .text s => some (some s)
    | _ => none
  let parts ← (← d.field? "data").items?
  some ⟨lead, ← parts.mapM Fragment.ofDatum?⟩

/-- The recipe that a datum shows. -/
def Recipe.ofDatum? (d : Datum) : Option Recipe := do
  let variadic ← match ← d.field? "variadic" with
    | .null => some none
    | v => (Variadic.ofDatum? v).map some
  some {
    echo := ← (← d.field? "echo").flag?
    name := ← (← d.field? "name").text?
    parameters := ← (← (← d.field? "parameters").items?).mapM Parameter.ofDatum?
    variadic := variadic
    before := ← (← (← d.field? "before_dependencies").items?).mapM Dependency.ofDatum?
    after := ← (← (← d.field? "after_dependencies").items?).mapM Dependency.ofDatum?
    body := ← (← (← d.field? "body").items?).mapM Line.ofDatum? }

/-- The value of a setting that a datum shows. -/
def SettingValue.ofDatum? : Datum → Option SettingValue
  | .flag b => some (.flag b)
  | .text s => some (.text s)
  | .null => some .missing
  | d => d.texts?.map .words

/-- The assignment that a datum shows. -/
def assignmentOfDatum? (d : Datum) : Option (String × Expr) := do
  some (← (← d.field? "name").text?, Expr.ofDatum (← d.field? "value"))

/-- The declaration that a record of a kind shows. -/
def Declaration.ofRecord? (kind : String) (d : Datum) : Option Declaration := do
  match kind with
  | "Recipe" => (Recipe.ofDatum? d).map .recipe
  | "Alias" => some (.alias (← (← d.field? "name").text?) (← (← d.field? "aliased_to").text?))
  | "Assignment" => (assignmentOfDatum? d).map fun (name, value) => .assignment name value
  | "Export" =>
    (assignmentOfDatum? (← d.field? "assignment")).map fun (name, value) => .exported name value
  | "Setting" =>
    some (.setting (← (← d.field? "setting").text?)
      (← SettingValue.ofDatum? (← d.field? "value")))
  | "Comment" => (← d.field? "comment").text?.map .comment
  | _ => none

/-- The declaration that a datum shows. -/
def Declaration.ofDatum (d : Datum) : Declaration :=
  match d with
  | .record kind _ => (Declaration.ofRecord? kind d).getD (.stray d)
  | d => .stray d

/-- The item that a datum shows. -/
def Item.ofDatum? (d : Datum) : Option Item := do
  let names ← (← (← d.field? "attributes").field? "names").texts?
  some ⟨names, Declaration.ofDatum (← d.field? "item")⟩

namespace Datum

/-- The given fields of each kind of record, in the order in which they are shown. -/
def fieldOrder : String → Option (List String)
  | "Backtick" => some ["command"]
  | "Comment" => some ["comment"]
  | "Function" => some ["name", "arguments"]
  | "Variable" => some ["name"]
  | "Div" => some ["div_1", "div_2"]
  | "Sum" => some ["sum_1", "sum_2"]
  | "Alias" => some ["name", "aliased_to"]
  | "Assignment" => some ["name", "value"]
  | "Export" => some ["assignment"]
  | "Setting" => some ["setting", "value"]
  | "Eq" => some ["left", "right"]
  | "Neq" => some ["left", "right"]
  | "RegexEq" => some ["left", "right"]
  | "Conditional" => some ["if_condition", "then", "else_then"]
  | "Attributes" => some ["names"]
  | "Parameter" => some ["env_var", "name", "value"]
  | "VarStar" => some ["param"]
  | "VarPlus" => some ["param"]
  | "Dependency" => some ["name", "default_args"]
  | "Interpolation" => some ["expression"]
  | "Line" => some ["prefix", "data"]
  | "Recipe" => some ["echo", "name", "parameters", "variadic", "before_dependencies",
      "after_dependencies", "body"]
  | "Item" => some ["attributes", "item"]
  | _ => none

/-- A record of a kind from named fields in any order. A recipe also gets the counts of its
parameters, and is refused if its variadic parameter lacks a default. -/
def ofFields (kind : String) (fields : List (String × Datum)) : Except Failure Datum := do
  let given := Datum.record kind fields
  let names := (fieldOrder kind).getD (fields.map (·.1))
  let ordered := names.filterMap fun name => (given.field? name).map fun d => (name, d)
  match kind, Recipe.ofDatum? given with
  | "Recipe", some r =>
    r.check
    pure (.record kind (ordered ++ r.counts))
  | _, _ => pure (.record kind ordered)

end Datum

end Justfile
