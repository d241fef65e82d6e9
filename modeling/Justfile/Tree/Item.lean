import Justfile.Tree.Recipe

/-!
# Items

A justfile is a list of items: recipes, aliases, assignments, exported assignments, settings and
comments, each with its attributes.
-/

namespace Justfile

/-- The value of a setting. -/
inductive SettingValue where
  | flag (b : Bool)
  | text (s : String)
  | words (ss : List String)
  | missing
  deriving DecidableEq

namespace SettingValue

/-- A setting counts as given unless it is false, empty or missing. -/
def isGiven : SettingValue → Bool
  | .flag b => b
  | .text s => s != ""
  | .words ss => !ss.isEmpty
  | .missing => false

/-- The value as plain data. -/
def datum : SettingValue → Datum
  | .flag b => .flag b
  | .text s => .text s
  | .words ss => .list (ss.map .text)
  | .missing => .null

instance : ToDatum SettingValue := ⟨datum⟩

end SettingValue

/-- What an item declares. -/
inductive Declaration where
  | recipe (r : Recipe)
  | alias (name target : String)
  | assignment (name : String) (value : Expr)
  | exported (name : String) (value : Expr)
  | setting (name : String) (value : SettingValue)
  | comment (s : String)
  /-- A datum that declares nothing. -/
  | stray (datum : Datum)
  deriving DecidableEq

/-- An item of a justfile. -/
structure Item where
  attributes : List String
  declaration : Declaration
  deriving DecidableEq

/-- The record that shows an assignment. -/
def assignmentDatum (name : String) (value : Expr) : Datum :=
  .record "Assignment" [("name", .text name), ("value", toDatum value)]

/-- The record that shows an alias. -/
def aliasDatum (name target : String) : Datum :=
  .record "Alias" [("name", .text name), ("aliased_to", .text target)]

/-- The record that shows an exported assignment. -/
def exportedDatum (name : String) (value : Expr) : Datum :=
  .record "Export" [("assignment", assignmentDatum name value)]

/-- The record that shows a setting. -/
def settingDatum (name : String) (value : SettingValue) : Datum :=
  .record "Setting" [("setting", .text name), ("value", toDatum value)]

/-- The record that shows a comment. -/
def commentDatum (s : String) : Datum :=
  .record "Comment" [("comment", .text s)]

/-- The record that shows attributes. -/
def attributesDatum (names : List String) : Datum :=
  .record "Attributes" [("names", toDatum names)]

instance : ToDatum Declaration where
  toDatum
    | .recipe r => toDatum r
    | .alias name target => aliasDatum name target
    | .assignment name value => assignmentDatum name value
    | .exported name value => exportedDatum name value
    | .setting name value => settingDatum name value
    | .comment s => commentDatum s
    | .stray datum => datum

instance : ToDatum Item where
  toDatum i :=
    .record "Item" [("attributes", attributesDatum i.attributes), ("item", toDatum i.declaration)]

end Justfile
