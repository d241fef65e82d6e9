import Justfile.Proofs.Declared

/-!
# Scripts link

The functions that a script calls are made at other places than the functions it defines: dependencies and
aliases name recipes, a recipe for a platform is defined under a longer name, and a dispatcher is added at the
end. Variables are read in words that stem from expressions anywhere in the justfile.

* `Linkable`: what a justfile refers to is declared.
* `Linked`: what the parts of a script call is defined, and what they read is assigned.
* `Made.linked`: a linkable justfile gets a linked script.
-/

namespace Justfile

open Shell Shell.Names

/-- The variables in an expression. -/
def Expr.variables (e : Expr) : List String :=
  e.nodes.filterMap fun
    | .var name => some name
    | _ => none

theorem Expr.mem_variables {e : Expr} {name : String} : name ∈ e.variables ↔ .var name ∈ e.nodes := by
  constructor
  · intro h
    obtain ⟨e', he', hname⟩ := List.mem_filterMap.1 h
    cases e' with
    | var n =>
      cases hname
      exact he'
    | _ => cases hname
  · exact fun h => List.mem_filterMap.2 ⟨_, h, rfl⟩

/-- Every dependency and every alias is for a declared recipe, every variable is declared or a parameter
of the recipe it stands in, and no recipe is for two platforms. -/
structure Linkable (items : List Item) : Prop where
  dependencies : ∀ x ∈ recipesIn items, ∀ d ∈ x.2.before ++ x.2.after,
    d.name ∈ (recipesIn items).map (·.2.name)
  aliases : ∀ x ∈ aliasesIn items, x.2 ∈ (recipesIn items).map (·.2.name)
  assignments : ∀ x ∈ assignmentsIn items, ∀ v ∈ x.2.variables, v ∈ (assignmentsIn items).map (·.1)
  recipes : ∀ x ∈ recipesIn items, ∀ e ∈ x.2.exprs, ∀ v ∈ e.variables,
    v ∈ (assignmentsIn items).map (·.1) ∨ v ∈ x.2.params.map (·.base.name)
  platforms : ∀ x ∈ recipesIn items, (Platform.ofAttributes x.1).length ≤ 1

/-- The variables that the function of a conditional reads. -/
def TestFunction.reads (f : TestFunction) : List String :=
  f.words.flatMap Word.reads

/-- A conditional reads the variables that stand in it. -/
theorem TestFunction.Of.reads {u : Names} {e : Expr} {f : TestFunction} (h : f.Of u e) :
    ∀ v ∈ f.reads, ∃ name ∈ e.variables, v = u.shellName ("VAR_" ++ name) := by
  intro v hv
  obtain ⟨w, hw, hv⟩ := List.mem_flatMap.1 hv
  obtain ⟨e', he', hword⟩ := h.words w hw
  obtain ⟨name, hmem, rfl⟩ := hword.reads hv
  exact ⟨name, Expr.mem_variables.2 (Expr.nodes_subset he' hmem), rfl⟩

namespace Script

/-- **What a script calls is defined, and what it reads is assigned.** The functions of recipes stand in
the order of the recipes of the justfile; a function reads variables of the justfile, its own parameters
and its interpolated values. The function of a conditional is for a conditional of the justfile, and
reads what is assigned before, or by the function of any recipe that has the conditional. -/
structure Linked (items : List Item) (p : Program) (u : Names) (s : Script) : Prop where
  recipes : List.Forall₂ (fun x f => f.Of u p x.1 x.2) (recipesIn items) s.functions
  calls : ∀ f ∈ s.functions, ∀ g ∈ f.calls, g ∈ s.defined
  aliases : ∀ f ∈ s.aliases, f.target ∈ s.defined
  branches : ∀ d ∈ s.dispatchers, ∀ b ∈ d.branches,
    b.function ∈ s.defined ∧ p.helpers.contains b.detector = true
  cases : ∀ c ∈ s.cases, c.function ∈ s.defined
  default : ∀ d ∈ s.default, d.function ∈ s.defined
  assignments : ∀ a ∈ s.assignments, ∀ v ∈ a.value.reads, v ∈ s.assigned
  listed : ∀ v ∈ s.sortedVariables ++ s.declared, v.shellName ∈ s.assigned
  functions : ∀ f ∈ s.functions, ∀ v ∈ f.reads, v ∈ s.assigned ∨ v ∈ f.writes ∨ v ∈ f.interpolated
  tests : ∀ f, .test f ∈ s.helpers → (∃ e ∈ openExprNodes items, f.Of u e) ∧
    (∀ x ∈ assignmentsIn items, ∀ e ∈ x.2.nodes, f.Of u e → ∀ v ∈ f.reads, v ∈ s.assigned) ∧
    ∀ x ∈ (recipesIn items).zip s.functions, ∀ e ∈ x.1.2.exprs, ∀ e' ∈ e.nodes, f.Of u e' →
      ∀ v ∈ f.reads, v ∈ s.assigned ∨ v ∈ x.2.writes

variable {s : Script}

theorem name_mem_defined {f : RecipeFunction} (hf : f ∈ s.functions) : f.name ∈ s.defined := by
  obtain ⟨entry, hentry, hsome⟩ := List.mem_filterMap.1 hf
  refine List.mem_filterMap.2 ⟨entry, hentry, ?_⟩
  cases entry with
  | recipe f' =>
    cases hsome
    rfl
  | _ => cases hsome

theorem aliasName_mem_defined {f : AliasFunction} (hf : f ∈ s.aliases) : f.name ∈ s.defined := by
  obtain ⟨entry, hentry, hsome⟩ := List.mem_filterMap.1 hf
  refine List.mem_filterMap.2 ⟨entry, hentry, ?_⟩
  cases entry with
  | «alias» f' =>
    cases hsome
    rfl
  | _ => cases hsome

theorem dispatcherName_mem_defined {d : Dispatcher} (hd : d ∈ s.dispatchers) : d.name ∈ s.defined := by
  obtain ⟨entry, hentry, hsome⟩ := List.mem_filterMap.1 hd
  refine List.mem_filterMap.2 ⟨entry, hentry, ?_⟩
  cases entry with
  | dispatcher d' =>
    cases hsome
    rfl
  | _ => cases hsome

end Script

namespace Platform

theorem ofName?_name (platform : Platform) : ofName? platform.name = some platform := by
  cases platform <;> rfl

/-- A recipe for one platform asks for the function that tells this platform. -/
theorem detector?_of_mem {attributes : List String} {platform : Platform}
    (hmem : platform ∈ ofAttributes attributes) (hone : (ofAttributes attributes).length ≤ 1) :
    Helpers.detector? attributes = some platform.detector := by
  obtain ⟨other, hother⟩ : ∃ other, ofAttributes attributes = [other] := by
    cases hattributes : ofAttributes attributes with
    | nil =>
      rw [hattributes] at hmem
      cases hmem
    | cons other rest =>
      rw [hattributes, List.length_cons] at hone
      have hrest : rest = [] := List.length_eq_zero_iff.1 (by omega)
      exact ⟨other, by rw [hrest]⟩
  rw [hother, List.mem_singleton] at hmem
  unfold Helpers.detector?
  rw [hother, ← hmem]
  cases platform <;> rfl

end Platform

namespace Made

variable {items : List Item} {p : Program} {s : Script} {u : Names} (h : Made items p s u)

include h

/-- Every recipe is defined under its name: by its own function, or by a dispatcher. -/
theorem recipe_mem_defined {recipe g : String} (hrecipe : recipe ∈ (recipesIn items).map (·.2.name))
    (hg : u.find? g = some ("FUN_" ++ recipe)) : g ∈ s.defined := by
  obtain ⟨⟨attributes, r⟩, hr, rfl⟩ := List.mem_map.1 hrecipe
  -- with platforms its own function has a longer name, and the name is that of a dispatcher
  by_cases hplatforms : Platform.ofAttributes attributes = []
  · obtain ⟨f, hf, hof⟩ := exists_right_of_mem h.functions _ hr
    have hname := hof.name
    simp only [hplatforms] at hname
    rw [(h.settled.eq_iff hg hname).2 rfl]
    exact Script.name_mem_defined hf
  · obtain ⟨x, hx, hkey⟩ := List.mem_map.1 (Program.mem_keys_platformsOf hr hplatforms)
    obtain ⟨d, hd, hname, -⟩ := exists_right_of_mem h.dispatchers x hx
    rw [hkey] at hname
    rw [(h.settled.eq_iff hg hname).2 rfl]
    exact Script.dispatcherName_mem_defined hd

theorem alias_mem_defined {name target g : String} (halias : (name, target) ∈ aliasesIn items)
    (hg : u.find? g = some ("FUN_" ++ name)) : g ∈ s.defined := by
  obtain ⟨f, hf, hname, -⟩ := exists_right_of_mem h.aliases _ halias
  rw [(h.settled.eq_iff hg hname).2 rfl]
  exact Script.aliasName_mem_defined hf

/-- Every declared variable is assigned. -/
theorem mem_assigned {name : String} (hname : name ∈ (assignmentsIn items).map (·.1)) :
    u.shellName ("VAR_" ++ name) ∈ s.assigned := by
  have hkey := Program.mem_keys_variablesOf hname
  rw [← h.program.values] at hkey
  obtain ⟨x, hx, rfl⟩ := List.mem_map.1 hkey
  obtain ⟨a, ha, hfind, -⟩ := exists_right_of_mem h.script.assignments x hx
  rw [h.settled _ _ hfind]
  exact List.mem_map_of_mem ha

/-- Every parameter is assigned by the function of its recipe. -/
theorem mem_writes {attributes : List String} {r : Recipe} {f : Script.RecipeFunction}
    (hf : f.Of u p attributes r) {name : String} (hname : name ∈ r.params.map (·.base.name)) :
    u.shellName ("VAR_" ++ name) ∈ f.writes := by
  obtain ⟨q, hq, rfl⟩ := List.mem_map.1 hname
  obtain ⟨v, hv, hfind⟩ := exists_right_of_mem hf.writes q hq
  rw [h.settled _ _ hfind]
  exact hv

/-- The variables of a program are declared. -/
theorem declared_of_mem_keys {name : String} (hname : name ∈ p.values.keys) :
    name ∈ (assignmentsIn items).map (·.1) := by
  rw [h.program.values] at hname
  obtain ⟨x, hx, rfl⟩ := List.mem_map.1 hname
  exact List.mem_map_of_mem (Program.mem_variablesOf x hx)

/-- What reaches the environment of a recipe's commands is declared or a parameter. -/
theorem declared_of_mem_exportNames {r : Recipe} {name : String} (hname : name ∈ Script.exportNames p r) :
    name ∈ (assignmentsIn items).map (·.1) ∨ name ∈ r.params.map (·.base.name) := by
  unfold Script.exportNames at hname
  rw [List.mem_append, List.mem_append] at hname
  rcases hname with (hname | hname) | hname
  · rw [h.program.exports] at hname
    obtain ⟨i, hi, hd⟩ := List.mem_filterMap.1 hname
    cases hdecl : i.declaration with
    | exported n value =>
      rw [hdecl] at hd
      cases hd
      refine .inl (List.mem_map.2 ⟨(name, value), List.mem_filterMap.2 ⟨i, hi, ?_⟩, rfl⟩)
      rw [hdecl]
    | _ =>
      rw [hdecl] at hd
      cases hd
  · split at hname
    · exact .inl (h.declared_of_mem_keys hname)
    · cases hname
  · obtain ⟨q, hq, rfl⟩ := List.mem_map.1 hname
    exact .inr (List.mem_map_of_mem (List.mem_of_mem_filter hq))

/-- A function reads what is declared, its own parameters, and its interpolated values. -/
theorem function_reads {attributes : List String} {r : Recipe} {f : Script.RecipeFunction}
    (hf : f.Of u p attributes r)
    (hvars : ∀ e ∈ r.exprs, ∀ v ∈ e.variables, v ∈ (assignmentsIn items).map (·.1) ∨ v ∈ r.params.map (·.base.name)) :
    ∀ v ∈ f.reads, v ∈ s.assigned ∨ v ∈ f.writes ∨ v ∈ f.interpolated := by
  have hname : ∀ name, name ∈ (assignmentsIn items).map (·.1) ∨ name ∈ r.params.map (·.base.name) →
      u.shellName ("VAR_" ++ name) ∈ s.assigned ∨ u.shellName ("VAR_" ++ name) ∈ f.writes ∨
        u.shellName ("VAR_" ++ name) ∈ f.interpolated := by
    intro name hdeclared
    exact hdeclared.imp h.mem_assigned fun hparam => .inl (h.mem_writes hf hparam)
  intro v hv
  rcases List.mem_append.1 hv with hv | hv
  · obtain ⟨w, hw, hv⟩ := List.mem_flatMap.1 hv
    obtain ⟨e, he, hword⟩ := hf.values w hw
    obtain ⟨name, hmem, rfl⟩ := hword.reads hv
    exact hname name (hvars e he name (Expr.mem_variables.2 hmem))
  · obtain ⟨step, hstep, hv⟩ := List.mem_flatMap.1 hv
    have hof := hf.steps step hstep
    unfold Script.Step.reads at hv
    rw [List.mem_append, List.mem_append] at hv
    rcases hv with (hv | hv) | hv
    · obtain ⟨w, hw, hv⟩ := List.mem_flatMap.1 hv
      exact .inr (.inr (List.mem_flatMap.2 ⟨step, hstep, hof.words w hw v hv⟩))
    · -- the environment holds variables of the justfile and parameters
      obtain ⟨e, he, rfl⟩ := List.mem_map.1 hv
      obtain ⟨name, hmem, -, hfind⟩ := exists_left_of_mem hof.exports e he
      rw [← h.settled _ _ hfind]
      exact hname name (h.declared_of_mem_exportNames hmem)
    · obtain ⟨q, hq, hfind⟩ := hof.arguments v hv
      rw [← h.settled _ _ hfind]
      have hparam : q.name ∈ r.params.map (·.base.name) :=
        List.mem_map.2 ⟨.plain q, List.mem_append_left _ (List.mem_map_of_mem hq), rfl⟩
      exact hname q.name (.inr hparam)

/-- **A linkable justfile gets a linked script.** -/
theorem linked (hlink : Linkable items) : s.Linked items p u := by
  have hrecipes : p.recipes = (recipesIn items).map (·.2.name) := h.program.recipes
  refine ⟨h.functions, ?_, ?_, ?_, ?_, ?_, ?_, ?_, ?_, ?_⟩
  · intro f hf g hg
    obtain ⟨x, hx, hof⟩ := exists_left_of_mem h.functions f hf
    obtain ⟨run, hrun, rfl⟩ := List.mem_map.1 hg
    obtain ⟨d, hd, hrunOf⟩ := hof.run hrun
    exact h.recipe_mem_defined (hlink.dependencies x hx d hd) hrunOf.function
  · intro f hf
    obtain ⟨x, hx, -, htarget⟩ := exists_left_of_mem h.aliases f hf
    exact h.recipe_mem_defined (hlink.aliases x hx) htarget
  · intro d hd b hb
    obtain ⟨attributes, r, platform, f, hf, hr, -, hplatform, -, hbranch, hfunction⟩ := h.branch hd hb
    constructor
    · rw [hfunction]
      exact Script.name_mem_defined hf
    · have hdetector : b.detector = platform.detector := by
        rw [hbranch.detector, Platform.ofName?_name]
        rfl
      rw [hdetector]
      exact h.detectors _ (mem_recipesIn.1 hr) _ (Platform.detector?_of_mem hplatform (hlink.platforms _ hr))
  · intro c hc
    obtain ⟨target, htarget, hfind⟩ := exists_left_of_mem h.script.cases c hc
    rcases h.program.targets target htarget with hmem | ⟨r, -, halias⟩
    · rw [hrecipes] at hmem
      exact h.recipe_mem_defined hmem hfind
    · exact h.alias_mem_defined halias hfind
  · intro d hd
    obtain ⟨recipe, hmem, hfind⟩ := h.script.default d hd
    rw [hrecipes] at hmem
    exact h.recipe_mem_defined hmem hfind
  · intro a ha v hv
    obtain ⟨x, hx, -, hword⟩ := exists_left_of_mem h.script.assignments a ha
    obtain ⟨name, hmem, rfl⟩ := hword.reads hv
    rw [h.program.values] at hx
    exact h.mem_assigned (hlink.assignments x (Program.mem_variablesOf x hx) name (Expr.mem_variables.2 hmem))
  · have hsorted : ∀ name ∈ sortStrings p.values.keys, name ∈ p.values.keys :=
      fun name hname => (List.mergeSort_perm _ _).mem_iff.1 hname
    intro v hv
    obtain ⟨name, hmem, hfind⟩ : ∃ name ∈ p.values.keys, u.find? v.shellName = some ("VAR_" ++ name) := by
      rcases List.mem_append.1 hv with hv | hv
      · obtain ⟨name, hmem, hfind⟩ := exists_left_of_mem h.script.sortedVariables v hv
        exact ⟨name, hsorted name hmem, hfind⟩
      · exact exists_left_of_mem h.script.declared v hv
    rw [← h.settled _ _ hfind]
    exact h.mem_assigned (h.declared_of_mem_keys hmem)
  · intro f hf
    obtain ⟨x, hx, hof⟩ := exists_left_of_mem h.functions f hf
    exact h.function_reads hof (hlink.recipes x hx)
  · intro f hf
    rw [h.script.helpers] at hf
    refine ⟨h.tests _ hf f rfl, fun x hx e he hof v hv => ?_, fun x hx e he e' he' hof v hv => ?_⟩
    · obtain ⟨name, hmem, rfl⟩ := hof.reads v hv
      refine h.mem_assigned (hlink.assignments x hx name (Expr.mem_variables.2 ?_))
      exact Expr.nodes_subset he (Expr.mem_variables.1 hmem)
    · obtain ⟨name, hmem, rfl⟩ := hof.reads v hv
      have hfun := List.forall₂_zip h.functions hx
      have hdeclared := hlink.recipes x.1 (List.of_mem_zip hx).1 e he name
        (Expr.mem_variables.2 (Expr.nodes_subset he' (Expr.mem_variables.1 hmem)))
      exact hdeclared.imp h.mem_assigned (h.mem_writes hfun)

end Made

end Justfile
