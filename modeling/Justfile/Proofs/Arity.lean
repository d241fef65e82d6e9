import Justfile.Proofs.Calls
import Justfile.Proofs.Parameters

/-!
# How many arguments are asked for

Two parts of a script ask whether there are enough arguments. The function of a recipe counts the parameters
before the first default, and one more for a variadic parameter that cannot be empty. The call of the default
recipe counts all parameters without a default, whatever they are.

* `Asks`: the least number of arguments with which commands do not end the script.
* `undefaulted_params`: how the two counts differ.
* `Script.DefaultAsks`: what the default recipe and its function ask for. `default_asks`: this holds of every
  script, and the two agree just if the recipe has no `*` parameter without a default.
-/

namespace Justfile

open Shell

/-- With fewer than `n` arguments the commands end the script, and with `n` or more they do not. -/
def Shell.Asks (statements : List Statement) (n : Nat) : Prop :=
  ∀ (w : World) (args : List String), (runBlock w (.start args) statements).2 = .ended ↔ args.length < n

/-- Commands ask for one number only. -/
theorem Shell.Asks.unique {statements : List Statement} {n m : Nat} (hn : Asks statements n)
    (hm : Asks statements m) : n = m := by
  -- a run with `k` arguments tells whether `k` is less, for either number
  have hiff (k : Nat) : k < n ↔ k < m := by
    have h := (hn ⟨fun _ => "", fun _ => ""⟩ (List.replicate k "")).symm.trans (hm _ _)
    rwa [List.length_replicate] at h
  have hleft := hiff n
  have hright := hiff m
  omega

theorem Shell.Asks.iff_eq {statements : List Statement} {n : Nat} (h : Asks statements n) (m : Nat) :
    Asks statements m ↔ m = n :=
  ⟨fun hm => hm.unique h, fun heq => heq ▸ h⟩

section Count

/-- How many variadic parameters may be empty although they have no default. -/
def Recipe.mayLack (r : Recipe) : Nat :=
  match r.variadic with
  | some ⟨.star, { default := none, .. }⟩ => 1
  | _ => 0

theorem Recipe.mayLack_eq_zero_iff (r : Recipe) :
    r.mayLack = 0 ↔ ∀ v ∈ r.variadic, v.arity = .star → v.param.default ≠ none := by
  unfold mayLack
  split
  · rename_i hv
    simp [hv]
  · rename_i hother
    refine iff_of_true rfl fun v hv harity hdefault => ?_
    obtain ⟨arity, exported, name, default⟩ := v
    cases harity
    cases hdefault
    exact hother exported name hv

variable {P : Expr → Prop} {r : Recipe}

/-- Parameters without a default stand before those with one. -/
theorem Recipe.Shaped.count_undefaulted (h : r.Shaped P) :
    (r.parameters.filter fun q => q.default.isNone).length = r.required := by
  -- the prefix is kept as it is, and nothing of the rest
  have hall : (r.parameters.take r.required).filter (fun q => q.default.isNone) = r.parameters.take r.required := by
    rw [List.filter_eq_self]
    intro q hq
    rw [h.required q hq]
    rfl
  have hnone : (r.parameters.drop r.required).filter (fun q => q.default.isNone) = [] := by
    rw [List.filter_eq_nil_iff]
    intro q hq hdefault
    exact h.defaulted q hq (Option.isNone_iff_eq_none.1 hdefault)
  have hle : r.required ≤ r.parameters.length := (List.takeWhile_prefix _).length_le
  rw [← List.take_append_drop r.required r.parameters, List.filter_append, hall, hnone, List.append_nil,
    List.length_take, Nat.min_eq_left hle]

/-- **How the two counts differ**: a variadic parameter that may be empty is counted if it has no default. -/
theorem Recipe.Shaped.undefaulted_params (h : r.Shaped P) :
    (Script.defaultLeast r.params).getD 0 = Script.leastCount r + r.mayLack := by
  have hfilter : (Script.defaultLeast r.params).getD 0 =
      (r.params.filter fun q => q.base.default.isNone).length := by
    unfold Script.defaultLeast
    split
    · rename_i hempty
      rw [List.isEmpty_iff.1 hempty]
      rfl
    · rfl
  have hplain : ((r.parameters.map Param.plain).filter fun q => q.base.default.isNone).length = r.required := by
    rw [List.filter_map, List.length_map]
    exact h.count_undefaulted
  rw [hfilter, Recipe.params, List.filter_append, List.length_append, hplain]
  unfold Script.leastCount Recipe.mayLack
  rcases r.variadic with _ | ⟨_ | _, exported, name, _ | e⟩ <;> rfl

end Count

section Meant

variable {recipes : List Recipe} {name : String}

theorem meant_isSome (h : (recipes.find? fun r => r.name == name).isSome = true) (aliases : List (String × String)) :
    (meant recipes aliases name).isSome = true := by
  -- an alias whose target means nothing leaves the name as it was
  induction aliases with
  | nil => exact h
  | cons a aliases ih =>
    obtain ⟨other, target⟩ := a
    rw [meant]
    split
    · rw [Option.isSome_or, ih, Bool.or_true]
    · exact ih

theorem mem_of_meant {aliases : List (String × String)} {r : Recipe} (h : meant recipes aliases name = some r) :
    r ∈ recipes := by
  induction aliases generalizing name with
  | nil => exact List.mem_of_find?_eq_some h
  | cons a aliases ih =>
    obtain ⟨other, target⟩ := a
    rw [meant] at h
    split at h
    · rcases Option.or_eq_some_iff.1 h with h | ⟨-, h⟩
      · exact ih h
      · exact ih h
    · exact ih h

end Meant

namespace Script

/-- The commands with which a function takes its arguments. -/
def RecipeFunction.taking (f : RecipeFunction) : List Statement :=
  f.intake.elim [] Intake.statements

theorem Default.asks (d : Default) : Asks d.statements (d.least.getD 0) := by
  intro w args
  rw [Default.run_eq]
  split
  · rename_i hlt
    exact iff_of_true rfl hlt
  · rename_i hge
    exact iff_of_false nofun hge

theorem RecipeFunction.asks (f : RecipeFunction) : Asks f.taking (f.intake.elim 0 Intake.required) := by
  intro w args
  unfold taking
  cases f.intake with
  | none => exact iff_of_false nofun (Nat.not_lt_zero _)
  | some i =>
    rw [Option.elim_some, Option.elim_some, i.run_eq w args]
    split
    · rename_i hlt
      exact iff_of_true rfl hlt
    · rename_i hge
      exact iff_of_false nofun hge

/-- A function asks for what its recipe needs. -/
theorem Intake.Of.asks {r : Recipe} {f : RecipeFunction} (h : Intake.Of r f.intake) : Asks f.taking (leastCount r) := by
  rw [← h.required]
  exact f.asks

/-- **What the call of the default recipe and the function of this recipe ask for**, as they are written. The
call goes by the recipe that the name means, which an alias of this name can change. -/
structure DefaultAsks (items : List Item) (r : Recipe) (d : Default) (f : RecipeFunction) : Prop where
  recipe : d.recipe = r.name
  defaultText : "  " ++ d.text = blockText "  " d.statements ++ " "
  functionText : ∀ i ∈ f.intake, i.text = blockText "  " i.statements
  default : ∃ x, meantIn items r.name = some x ∧ Asks d.statements (leastCount x + x.mayLack)
  function : Asks f.taking (leastCount r)
  agree : r.name ∉ (aliasesIn items).map (·.1) → ((∀ n, Asks d.statements n ↔ Asks f.taking n) ↔
    ∀ v ∈ r.variadic, v.arity = .star → v.param.default ≠ none)

end Script

section Assembly

variable {items : List Item} {attributes : List String} {r : Recipe}

theorem Script.DefaultAsks.of_parameters {p : Program} {t : Names} (hp : (Program.ofItems items).result t = .ok p)
    (hshaped : ∀ x ∈ recipesIn items, x.2.Shaped Expr.Formed) (hr : (attributes, r) ∈ recipesIn items)
    (hdistinct : ((recipesIn items).map (·.2.name)).Nodup) {d : Script.Default} {f : Script.RecipeFunction}
    (hrecipe : d.recipe = r.name)
    (hleast : d.least = Script.defaultLeast ((p.parameters.find? r.name).getD []))
    (hintake : Script.Intake.Of r f.intake) : Script.DefaultAsks items r d f := by
  have hsome : (meantIn items r.name).isSome = true :=
    meant_isSome (by rw [find?_recipe hr hdistinct]; rfl) _
  obtain ⟨x, hx⟩ := Option.isSome_iff_exists.1 hsome
  obtain ⟨y, hy, rfl⟩ := List.mem_map.1 (List.mem_reverse.1 (mem_of_meant hx))
  have hdefault : Asks d.statements (Script.leastCount y.2 + y.2.mayLack) := by
    rw [← (hshaped y hy).undefaulted_params]
    rw [find?_parameters hp, hx, Option.map_some, Option.getD_some] at hleast
    rw [← hleast]
    exact d.asks
  have hfunction : Asks f.taking (Script.leastCount r) := hintake.asks
  refine ⟨hrecipe, d.text_eq, fun i hi => ?_, ⟨y.2, hx, hdefault⟩, hfunction, fun halias => ?_⟩
  · rw [Option.mem_def.1 hi] at hintake
    exact hintake.text_eq
  · have hsame : y.2 = r := Option.some.inj (hx.symm.trans (meant_of_recipe hr hdistinct halias))
    rw [hsame] at hdefault
    rw [← r.mayLack_eq_zero_iff]
    simp only [hdefault.iff_eq, hfunction.iff_eq]
    constructor
    · intro h
      have hcount := (h (Script.leastCount r)).2 rfl
      omega
    · intro hzero n
      rw [hzero, Nat.add_zero]

end Assembly

/-- **The default recipe is asked for more than its function needs just if it has a `*` parameter without a
default**, where recipes have different names and no alias takes the name of the first one. -/
theorem default_asks {edition : Edition} {outfile text script : String} {items : List Item}
    (hparse : parse text = .ok items) (hscript : (compile edition outfile text).script = .ok script)
    (hdistinct : ((recipesIn items).map (·.2.name)).Nodup) {attributes : List String} {r : Recipe}
    (hfirst : (recipesIn items).head? = some (attributes, r)) :
    ∃ p s, (Program.ofItems items).result .empty = .ok p ∧
      (Script.ofProgram edition outfile text p).result ((Program.ofItems items).table .empty) = .ok s ∧
      s.text = script ∧ ∃ d f, s.default = some d ∧ s.functions.head? = some f ∧
        f.Of (namesAfter edition outfile text items p) p attributes r ∧ Script.DefaultAsks items r d f := by
  obtain ⟨p, s, hp, hs, htext, hmade⟩ := made_of_compile hparse hscript
  have hparams := Script.parameters_of_ofProgram (Program.settled_ofItems hp) hs
  have hformed := parse_shaped Parsing.grammatical_formed hparse
  have hshaped : ∀ x ∈ recipesIn items, x.2.Shaped Expr.Formed :=
    fun x hx => (hformed _ (mem_recipesIn.1 hx)).2
  have hr : (attributes, r) ∈ recipesIn items := List.mem_of_head? hfirst
  have hdefault := hparams.default
  rw [hmade.program.recipes, List.head?_map, hfirst, Option.map_some, Option.map_some,
    Option.map_eq_some_iff] at hdefault
  obtain ⟨d, hd, hfields⟩ := hdefault
  obtain ⟨hrecipe, hleast⟩ := Prod.mk.inj hfields
  have hpairs := hmade.functions_intakes hparams
  obtain ⟨rest, hrest⟩ := List.head?_eq_some_iff.1 hfirst
  rw [hrest] at hpairs
  obtain ⟨f, functions, ⟨hof, hintake⟩, -, hfunctions⟩ := List.forall₂_cons_left_iff.1 hpairs
  refine ⟨p, s, hp, hs, htext, d, f, hd, ?_, hof, ?_⟩
  · rw [hfunctions]
    rfl
  · exact .of_parameters hp hshaped hr hdistinct hrecipe hleast hintake

/-- A recipe that takes any number of arguments. -/
def starText : String :=
  "all *rest:\n  echo\n"

def starAll : Recipe where
  echo := true
  name := "all"
  parameters := []
  variadic := some ⟨.star, ⟨false, "rest", none⟩⟩
  before := []
  after := []
  body := [⟨none, [.text "echo"]⟩]

/-- The recipe can be run without arguments, but not as the default. -/
theorem default_asks_star :
    parse starText = .ok [⟨[], .recipe starAll⟩] ∧
      ∃ script s d f, (compile ⟨"2000-01-02", "unknown"⟩ "just.sh" starText).script = .ok script ∧
        Script.text s = script ∧ s.default = some d ∧ s.functions.head? = some f ∧
        Asks d.statements 1 ∧ Asks f.taking 0 := by
  have hparse : parse starText = .ok [⟨[], .recipe starAll⟩] := by decide +kernel
  obtain ⟨script, hscript⟩ := compile_succeeds isDate_sample hparse rfl (by decide +kernel) rfl
  obtain ⟨p, s, -, -, htext, d, f, hd, hf, -, hasks⟩ := default_asks hparse hscript (by decide) rfl
  obtain ⟨x, hx, hdefault⟩ := hasks.default
  have hsame : some starAll = some x := hx
  rw [← Option.some.inj hsame] at hdefault
  exact ⟨hparse, script, s, d, f, hscript, htext, hd, hf, hdefault, hasks.function⟩

end Justfile
