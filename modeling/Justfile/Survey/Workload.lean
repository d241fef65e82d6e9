import Justfile.Compile
import Justfile.Survey.Sample

/-!
# Workloads

Work that is done again and again to see how long it takes. What it gives is small and the same
each time.

* `recipeWork`: recipes are built and checked. It counts the parameters of those that pass, and one
  for each that is refused.
* `compileWork`: a sample is compiled several times. It gives the lengths of the scripts.
-/

namespace Justfile.Survey

/-- How often the recipes are built. -/
def buildRounds : Nat := 20

/-- Parameters, all with a default or all without. -/
def someParameters (default : Option Expr) (n : Nat) : List Parameter :=
  (List.range n).map fun i => ⟨false, s!"p{i}", default⟩

/-- A recipe without a body. -/
def bareRecipe (parameters : List Parameter) (variadic : Option Variadic) : Recipe where
  echo := true
  name := "r"
  parameters := parameters
  variadic := variadic
  before := []
  after := []
  body := []

/-- The recipes of a round: with required parameters, with defaults, and with defaults before a
variadic parameter, which has a default as well or, in the last one, wrongly has none. -/
def roundRecipes (n : Nat) : List Recipe :=
  let given := some (.text "x")
  let rest (default : Option Expr) : Option Variadic := some ⟨.star, ⟨false, "rest", default⟩⟩
  [bareRecipe (someParameters none n) none,
    bareRecipe (someParameters given n) none,
    bareRecipe (someParameters given n) (rest given),
    bareRecipe (someParameters given n) (rest none)]

/-- What a recipe counts for. -/
def recipeCount (r : Recipe) : Nat :=
  match r.check with
  | .ok _ => r.required + r.defaulted
  | .error _ => 1

/-- The count of the workload; recipes have at least one parameter. -/
def recipeWork (n : Nat) : Nat :=
  buildRounds * ((roundRecipes (max 1 n)).map recipeCount).foldl (· + ·) 0

/-- The lengths of the scripts of `copies` copies of the sample. -/
def compileWork (edition : Edition) (copies : Nat) : Except Failure (List Nat) :=
  (List.replicate copies sample).mapM fun justfile =>
    String.length <$> (compile edition "just.sh" justfile).script

end Justfile.Survey
