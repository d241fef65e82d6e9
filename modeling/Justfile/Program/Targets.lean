import Justfile.Table

/-!
# Targets

What a user can ask a script for: its recipes, and after each recipe its aliases in alphabetical
order. Lists of targets name everything once.
-/

namespace Justfile

/-- Strings in the order of their code points. -/
def sortStrings (ss : List String) : List String :=
  ss.mergeSort fun a b => decide (a ≤ b)

/-- The targets found so far. -/
structure Targets where
  seen : List String
  recipes : List String
  all : List String

namespace Targets

/-- Nothing is found yet. -/
def empty : Targets := ⟨[], [], []⟩

/-- The targets with an alias, unless it is found already or skipped. -/
def addAlias (skip : String → Bool) (t : Targets) (name : String) : Targets :=
  if t.seen.contains name || skip name then t
  else { t with seen := name :: t.seen, all := t.all ++ [name] }

/-- The targets with a recipe and its aliases, unless the recipe is found already. -/
def addRecipe (aliases : Table (List String)) (isPrivate skip : String → Bool) (t : Targets)
    (name : String) : Targets :=
  if t.seen.contains name then t
  else
    let t : Targets := {
      seen := name :: t.seen
      recipes := if isPrivate name then t.recipes else t.recipes ++ [name]
      all := if skip name then t.all else t.all ++ [name] }
    (sortStrings ((aliases.find? name).getD [])).foldl (addAlias skip) t

/-- All targets, in the order of the recipes given. -/
def inOrder (aliases : Table (List String)) (isPrivate : String → Bool) (recipes : List String) :
    Targets :=
  recipes.foldl (addRecipe aliases isPrivate fun _ => false) .empty

/-- The targets that are not private, in alphabetical order of the recipes. -/
def sorted (aliases : Table (List String)) (isPrivate : String → Bool) (recipes : List String) :
    List String :=
  ((sortStrings recipes).foldl (addRecipe aliases isPrivate isPrivate) .empty).all

end Targets

end Justfile
