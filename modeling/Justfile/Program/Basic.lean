import Justfile.Program.Helper
import Justfile.Program.Settings
import Justfile.Program.Targets

/-!
# What a justfile declares

A `Program` is a justfile looked at as a whole: its settings, variables, recipes, aliases, and what
else its script is made from. `Program.ofItems` collects it and refuses justfiles that have no
script.
-/

namespace Justfile

open Shell

/-- Remarks that do not keep a justfile from being compiled. -/
inductive Warning where
  /-- Two recipes of one name have different parameters. -/
  | parametersDiffer (recipe : String)
  /-- Comments are moved. -/
  | commentsMove
  /-- The compiler was called by the name of the script. -/
  | calledAsScript
  deriving DecidableEq

/-- The text of a warning. -/
def Warning.text : Warning → String
  | .parametersDiffer recipe =>
    "Recipe " ++ recipe ++ " has different parameters than other versions of the same recipe. " ++
      "Only the parameters for the last version of the recipe in the file will be listed."
  | .commentsMove =>
    "Comments may be in unexpected places in the generated script. They are placed relative to " ++
      "recipes, not variable assignments or settings, which may be moved around."
  | .calledAsScript => "Call `./just.sh` instead of `just.sh` to execute the generated script."

/-- A justfile as a whole. -/
structure Program where
  items : List Item
  settings : Settings
  values : Table Expr
  exports : List String
  helpers : Helpers
  privates : List String
  recipes : List String
  platforms : Table (Table String)
  docs : Table String
  parameters : Table (List Param)
  aliases : Table (List String)
  uniqueRecipes : List String
  targets : List String
  sortedTargets : List String
  warnings : List Warning

namespace Program

/-- The variables of a justfile: the last value counts, the first place stays. -/
def variablesOf (items : List Item) : Table Expr :=
  items.foldl (fun t i => match i.declaration with
    | .assignment name value => t.put name value
    | .exported name value => t.put name value
    | _ => t) .empty

/-- The exported variables of a justfile. -/
def exportsOf (items : List Item) : List String :=
  items.filterMap fun i => match i.declaration with
    | .exported name _ => some name
    | _ => none

/-- Whether an item with some attributes and a name is private. -/
def isPrivate (attributes : List String) (name : String) : Bool :=
  attributes.contains "private" || name.startsWith "_"

/-- The names of private recipes and aliases. -/
def privatesOf (items : List Item) : List String :=
  items.filterMap fun i => match i.declaration with
    | .recipe r => if isPrivate i.attributes r.name then some r.name else none
    | .alias name _ => if isPrivate i.attributes name then some name else none
    | _ => none

/-- The names of recipes after those of `found`. Unless duplicates are allowed, a recipe without
platforms must have a new name. -/
def collectRecipes (duplicates : Bool) (found : List String) :
    List Item → Except Failure (List String)
  | [] => pure found
  | { declaration := .recipe r, attributes } :: rest =>
    if found.contains r.name && !duplicates && (Platform.ofAttributes attributes).isEmpty then
      throw .recipeRepeated
    else collectRecipes duplicates (found ++ [r.name]) rest
  | _ :: rest => collectRecipes duplicates found rest

/-- For each recipe name with platforms, the function for each platform. -/
def platformsOf (items : List Item) : Table (Table String) :=
  items.foldl (fun t i => match i.declaration with
    | .recipe r =>
      let platforms := Platform.ofAttributes i.attributes
      let function := Platform.functionName r.name platforms
      platforms.foldl (fun t p =>
        t.put r.name (((t.find? r.name).getD .empty).put p.name function)) t
    | _ => t) .empty

/-- The text that describes each target: the comment before a recipe that is not private, and what
an alias stands for. -/
def docsOf (items : List Item) : Table String :=
  ((none :: items.map some).zip items).foldl (fun t (previous, i) => match i.declaration with
    | .recipe r =>
      match previous with
      | some { declaration := .comment s, .. } =>
        if isPrivate i.attributes r.name then t else t.put r.name s
      | _ => t
    | .alias name target => t.put name ("alias for `" ++ target ++ "`")
    | _ => t) .empty

/-- The parameters of recipes by name, and a warning for each recipe whose parameters differ from
those of the one before it of the same name. -/
def parametersOf (items : List Item) : Table (List Param) × List Warning :=
  items.foldl (fun (t, warnings) i => match i.declaration with
    | .recipe r =>
      let differ := match t.find? r.name with
        | some params => params != r.params
        | none => false
      (t.put r.name r.params, if differ then warnings ++ [.parametersDiffer r.name] else warnings)
    | _ => (t, warnings)) (.empty, [])

/-- The aliases of each target in order of declaration. -/
def aliasesOf (items : List Item) : Table (List String) :=
  items.foldl (fun t i => match i.declaration with
    | .alias name target => t.put target ((t.find? target).getD [] ++ [name])
    | _ => t) .empty

/-- Parameters by name, where an alias has those of its target as they are at its place. -/
def withAliases (parameters : Table (List Param)) (items : List Item) : Table (List Param) :=
  items.foldl (fun t i => match i.declaration with
    | .alias name target =>
      match t.find? target with
      | some params => t.put name params
      | none => t
    | _ => t) parameters

/-- What a justfile declares. -/
def ofItems (items : List Item) : Naming Program := do
  let settings ← Naming.ofExcept (Settings.ofItems items)
  let helpers ← Helpers.ofItems items
  let duplicates := settings.isGiven "allow-duplicate-recipes"
  let recipes ← Naming.ofExcept (collectRecipes duplicates [] items)
  let privates := privatesOf items
  let (parameters, warnings) := parametersOf items
  let aliases := aliasesOf items
  let found := Targets.inOrder aliases privates.contains recipes
  pure {
    items := items
    settings := settings
    values := variablesOf items
    exports := exportsOf items
    helpers := helpers
    privates := privates
    recipes := recipes
    platforms := platformsOf items
    docs := docsOf items
    parameters := withAliases parameters items
    aliases := aliases
    uniqueRecipes := found.recipes
    targets := found.all
    sortedTargets := Targets.sorted aliases privates.contains recipes
    warnings := warnings }

end Program

end Justfile
