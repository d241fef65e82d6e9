import Justfile.Proofs.Intakes
import Justfile.Proofs.Repeatable

/-!
# Parameters by name

A program keeps the parameters of recipes in a table, which is filled in two passes: recipe by recipe, and
then alias by alias. An alias gets what its target has at that moment. The entry point of a script takes
the parameters from this table; the function of a recipe takes them from the recipe.

* `meant`: the recipe whose parameters a name has in the end. `find?_parameters`: these are in the table.
* `meant_of_recipe`, `meant_of_alias`: where names do not clash this is the recipe of that name, and the
  target of an alias of that name.
* `Naming.Gives`: what a computation gives, whatever the table of names.
* `Script.Parameters`: the intakes of functions, the cases of targets and the default, in these terms.
  `Made.functions_intakes`, `Made.cases_consumptions`: the same, with the names of the functions.
-/

namespace Justfile

open Shell Shell.Names

section Meant

/-- The recipe that a name means, where later recipes and later aliases stand first: an alias means what its
target means before it, if anything. -/
def meant (recipes : List Recipe) : List (String × String) → String → Option Recipe
  | [], name => recipes.find? fun r => r.name == name
  | (other, target) :: earlier, name =>
    if name = other then (meant recipes earlier target).or (meant recipes earlier name)
    else meant recipes earlier name

/-- The recipe that a name means in a justfile. -/
def meantIn (items : List Item) (name : String) : Option Recipe :=
  meant ((recipesIn items).map (·.2)).reverse (aliasesIn items).reverse name

variable {items : List Item}

theorem find?_parametersOf (items : List Item) (name : String) :
    (Program.parametersOf items).1.find? name =
      (meant ((recipesIn items).map (·.2)).reverse [] name).map Recipe.params := by
  -- from the end of the justfile: what is put in last is found first
  induction items using List.reverseRecOn with
  | nil => rfl
  | append_singleton items i ih =>
    have hsplit : recipesIn (items ++ [i]) = recipesIn items ++ recipesIn [i] := List.filterMap_append
    unfold Program.parametersOf at ih ⊢
    rw [List.foldl_append, List.foldl_cons, List.foldl_nil, hsplit, List.map_append, List.reverse_append]
    obtain ⟨attributes, declaration⟩ := i
    cases declaration with
    | recipe r =>
      have hone : (recipesIn [⟨attributes, .recipe r⟩]).map (·.2) = [r] := rfl
      rw [hone, List.reverse_singleton, List.singleton_append]
      simp only [meant, List.find?_cons]
      by_cases hname : name = r.name
      · subst hname
        simp
      · rw [Table.find?_put_of_ne _ _ hname, ih, beq_false_of_ne (Ne.symm hname)]
        rfl
    | _ => exact ih

theorem find?_withAliases {recipes : List Recipe} {base : Table (List Param)}
    (hbase : ∀ name, base.find? name = (meant recipes [] name).map Recipe.params) (items : List Item)
    (name : String) :
    (Program.withAliases base items).find? name =
      (meant recipes (aliasesIn items).reverse name).map Recipe.params := by
  induction items using List.reverseRecOn generalizing name with
  | nil => exact hbase name
  | append_singleton items i ih =>
    have hsplit : aliasesIn (items ++ [i]) = aliasesIn items ++ aliasesIn [i] := List.filterMap_append
    unfold Program.withAliases at ih ⊢
    rw [List.foldl_append, List.foldl_cons, List.foldl_nil, hsplit, List.reverse_append]
    obtain ⟨attributes, declaration⟩ := i
    cases declaration with
    | «alias» other target =>
      have hone : (aliasesIn [⟨attributes, .alias other target⟩]).reverse = [(other, target)] := rfl
      rw [hone, List.singleton_append, meant]
      simp only
      -- the target is looked up in the table before this alias
      rw [ih target]
      cases htarget : meant recipes (aliasesIn items).reverse target with
      | none =>
        rw [Option.map_none, Option.none_or, ite_self]
        exact ih name
      | some r =>
        rw [Option.map_some, Option.some_or]
        simp only
        by_cases hname : name = other
        · rw [if_pos hname, hname, Table.find?_put_self]
          rfl
        · rw [if_neg hname, Table.find?_put_of_ne _ _ hname]
          exact ih name
    | _ => exact ih name

/-- **The parameters of a name are those of the recipe that it means.** -/
theorem find?_parameters {t : Names} {p : Program} (h : (Program.ofItems items).result t = .ok p)
    (name : String) : p.parameters.find? name = (meantIn items name).map Recipe.params := by
  rw [(Program.assembled_of_ofItems h).parameters]
  exact find?_withAliases (find?_parametersOf items) items name

/-- Without an alias of this name, a name means the recipe that has it. -/
theorem meant_of_notMem {recipes : List Recipe} {aliases : List (String × String)} {name : String}
    (h : name ∉ aliases.map (·.1)) : meant recipes aliases name = recipes.find? fun r => r.name == name := by
  induction aliases with
  | nil => rfl
  | cons a aliases ih =>
    obtain ⟨other, target⟩ := a
    rw [List.map_cons, List.mem_cons, not_or] at h
    rw [meant, if_neg h.1, ih h.2]

/-- Where no two aliases have one name, an alias of a recipe means the recipe. -/
theorem meant_of_mem {recipes : List Recipe} {aliases : List (String × String)} {name target : String}
    (hnodup : (aliases.map (·.1)).Nodup) (hmem : (name, target) ∈ aliases)
    (htarget : target ∉ aliases.map (·.1)) {r : Recipe} (hr : recipes.find? (fun x => x.name == target) = some r) :
    meant recipes aliases name = some r := by
  induction aliases with
  | nil => cases hmem
  | cons a aliases ih =>
    obtain ⟨other, target'⟩ := a
    rw [List.map_cons, List.nodup_cons] at hnodup
    rw [List.map_cons, List.mem_cons, not_or] at htarget
    rw [meant]
    rcases List.mem_cons.1 hmem with heq | hrest
    · cases heq
      rw [if_pos rfl, meant_of_notMem htarget.2, hr, Option.some_or]
    · have hne : name ≠ other := by
        rintro rfl
        exact hnodup.1 (List.mem_map.2 ⟨_, hrest, rfl⟩)
      rw [if_neg hne]
      exact ih hnodup.2 hrest htarget.2

/-- What is looked up by its own key is found if no other has the key. -/
theorem find?_of_nodup {α : Type} {key : α → String} {l : List α} (h : (l.map key).Nodup) {a : α} (ha : a ∈ l) :
    l.find? (fun x => key x == key a) = some a := by
  cases hfind : l.find? (fun x => key x == key a) with
  | none => exact absurd (beq_self_eq_true (key a)) (List.find?_eq_none.1 hfind a ha)
  | some x =>
    have hkey := List.find?_some hfind
    rw [beq_iff_eq] at hkey
    rw [List.inj_on_of_nodup_map h (List.mem_of_find?_eq_some hfind) ha hkey]

/-- A recipe is found by its name if no other has it. -/
theorem find?_recipe {attributes : List String} {r : Recipe} (hr : (attributes, r) ∈ recipesIn items)
    (hnodup : ((recipesIn items).map (·.2.name)).Nodup) :
    ((recipesIn items).map (·.2)).reverse.find? (fun x => x.name == r.name) = some r := by
  have hnames : (((recipesIn items).map (·.2)).reverse.map (·.name)).Nodup := by
    rw [List.map_reverse, List.nodup_reverse, List.map_map]
    exact hnodup
  exact find?_of_nodup hnames (List.mem_reverse.2 (List.mem_map.2 ⟨_, hr, rfl⟩))

/-- **The name of a recipe means this recipe** if no other recipe and no alias has it. -/
theorem meant_of_recipe {attributes : List String} {r : Recipe} (hr : (attributes, r) ∈ recipesIn items)
    (hnodup : ((recipesIn items).map (·.2.name)).Nodup) (halias : r.name ∉ (aliasesIn items).map (·.1)) :
    meantIn items r.name = some r := by
  have hnot : r.name ∉ (aliasesIn items).reverse.map (·.1) := by
    rwa [List.map_reverse, List.mem_reverse]
  unfold meantIn
  rw [meant_of_notMem hnot, find?_recipe hr hnodup]

/-- **An alias of a recipe means this recipe** if names do not clash. -/
theorem meant_of_alias {attributes : List String} {r : Recipe} {name : String}
    (hr : (attributes, r) ∈ recipesIn items) (hname : (name, r.name) ∈ aliasesIn items)
    (hnodup : ((recipesIn items).map (·.2.name)).Nodup) (haliases : ((aliasesIn items).map (·.1)).Nodup)
    (halias : r.name ∉ (aliasesIn items).map (·.1)) : meantIn items name = some r := by
  refine meant_of_mem ?_ (List.mem_reverse.2 hname) ?_ (find?_recipe hr hnodup)
  · rwa [List.map_reverse, List.nodup_reverse]
  · rwa [List.map_reverse, List.mem_reverse]

end Meant

namespace Shell

variable {α β : Type} {m : Naming α} {P : α → Prop} {Q : β → Prop}

/-- Whatever the table of names, what `m` gives has the property. -/
def Naming.Gives (m : Naming α) (P : α → Prop) : Prop :=
  ∀ t a, m.result t = .ok a → P a

namespace Naming.Gives

theorem anything (m : Naming α) : m.Gives fun _ => True :=
  fun _ _ _ => trivial

theorem pure {a : α} (h : P a) : Naming.Gives (Pure.pure a) P := by
  intro t b hb
  cases hb
  exact h

theorem ofExcept (r : Except Failure α) : (Naming.ofExcept r).Gives fun a => r = .ok a :=
  fun _ _ h => h

theorem bind {k : α → Naming β} (hm : m.Gives P) (hk : ∀ a, P a → (k a).Gives Q) : (m >>= k).Gives Q := by
  intro t b hb
  obtain ⟨a, ha, hb, -⟩ := Naming.bind_eq_ok hb
  exact hk a (hm t a ha) _ b hb

theorem mapM {f : α → Naming β} {l : List α} {R : α → β → Prop} (h : ∀ a ∈ l, (f a).Gives (R a)) :
    (l.mapM f).Gives (List.Forall₂ R l) := by
  induction l with
  | nil => exact .pure .nil
  | cons a l ih =>
    rw [List.mapM_cons]
    refine (h a List.mem_cons_self).bind fun b hb => ?_
    refine (ih fun a' ha' => h a' (List.mem_cons_of_mem a ha')).bind fun bs hbs => ?_
    exact .pure (.cons hb hbs)

end Naming.Gives

end Shell

namespace Script

/-- How the function of a recipe takes its arguments: not at all without parameters, and else from the places
from one on, with the rest after them. -/
def Intake.Of (r : Recipe) : Option Intake → Prop
  | none => r.params = []
  | some i => r.params ≠ [] ∧ leastOf r = .ok i.least ∧
    i.slots.map (·.place) = List.range' 1 r.parameters.length ∧
    i.remainder.map (·.skipped) = r.variadic.map fun _ => r.parameters.length

theorem slotsOf_gives (place : Nat) (qs : List Parameter) :
    (slotsOf place qs).Gives fun slots => slots.map (·.place) = List.range' place qs.length := by
  induction qs generalizing place with
  | nil => exact .pure rfl
  | cons q qs ih =>
    refine (Naming.Gives.anything _).bind fun name _ => (Naming.Gives.anything _).bind fun default _ => ?_
    refine (ih (place + 1)).bind fun slots hslots => .pure ?_
    rw [List.map_cons, hslots, List.length_cons, List.range'_succ]

theorem remainderOf_gives (r : Recipe) :
    (remainderOf r).Gives fun rem => rem.map (·.skipped) = r.variadic.map fun _ => r.parameters.length := by
  unfold remainderOf
  cases r.variadic with
  | none => exact .pure rfl
  | some v =>
    exact (Naming.Gives.anything _).bind fun name _ => (Naming.Gives.anything _).bind fun default _ => .pure rfl

theorem intakeOf_gives (r : Recipe) : (intakeOf r).Gives (Intake.Of r) := by
  unfold intakeOf
  split
  · rename_i hempty
    exact .pure (List.isEmpty_iff.1 hempty)
  · rename_i hparams
    refine (Naming.Gives.ofExcept _).bind fun least hleast => (slotsOf_gives 1 _).bind fun slots hslots => ?_
    refine (remainderOf_gives r).bind fun rem hrem => .pure ⟨?_, hleast, hslots, hrem⟩
    exact fun hnil => hparams (List.isEmpty_iff.2 hnil)

theorem recipeFunction_gives (p : Program) (attributes : List String) (r : Recipe) :
    (recipeFunction p attributes r).Gives fun f => Intake.Of r f.intake := by
  refine (Naming.Gives.anything _).bind fun body _ => (Naming.Gives.anything _).bind fun name _ => ?_
  refine (Naming.Gives.anything _).bind fun hasRun _ => (Naming.Gives.anything _).bind fun force _ => ?_
  refine (intakeOf_gives r).bind fun intake hintake => (Naming.Gives.anything _).bind fun before _ => ?_
  exact (Naming.Gives.anything _).bind fun after _ => .pure hintake

theorem caseOf_gives (p : Program) (target : String) :
    (caseOf p target).Gives fun c =>
      c.target = target ∧ c.consumption = consumptionOf ((p.parameters.find? target).getD []) :=
  (Naming.Gives.anything _).bind fun _ _ => .pure ⟨rfl, rfl⟩

theorem defaultOf_gives (p : Program) :
    (defaultOf p).Gives fun d? => d?.map (fun d => (d.recipe, d.least)) =
      p.recipes.head?.map fun n => (n, defaultLeast ((p.parameters.find? n).getD [])) := by
  unfold defaultOf
  cases p.recipes with
  | nil => exact .pure rfl
  | cons n rest => exact (Naming.Gives.anything _).bind fun function _ => .pure rfl

/-- What a script does with parameters: functions take their arguments as their recipes say, and the cases of
targets and the default recipe go by the parameters of the program. -/
structure Parameters (p : Program) (s : Script) : Prop where
  functions : List.Forall₂ (fun x f => Intake.Of x.2 f.intake) (recipesIn p.items) s.functions
  cases : List.Forall₂ (fun target c => c.target = target ∧
    c.consumption = consumptionOf ((p.parameters.find? target).getD [])) p.targets s.cases
  default : s.default.map (fun d => (d.recipe, d.least)) =
    p.recipes.head?.map fun n => (n, defaultLeast ((p.parameters.find? n).getD []))

theorem parameters_of_ofProgram {edition : Edition} {outfile justfile : String} {p : Program} {t : Names}
    {s : Script} (ht : Settled t) (h : (ofProgram edition outfile justfile p).result t = .ok s) : s.Parameters p := by
  have hassembled := assembled_of_ofProgram h
  obtain ⟨_, hcases⟩ := hassembled.cases
  obtain ⟨_, hdefault⟩ := hassembled.default
  refine ⟨?_, Naming.Gives.mapM (fun n _ => caseOf_gives p n) _ _ hcases, defaultOf_gives p _ _ hdefault⟩
  exact (functions_again p ht h).imp fun x f hf => recipeFunction_gives p x.1 x.2 _ f (congrArg Prod.fst hf)

/-- What is written for the intake of a function are its commands. -/
theorem Intake.Of.text_eq {r : Recipe} {i : Intake} (h : Intake.Of r (some i)) :
    i.text = blockText "  " i.statements := by
  obtain ⟨hparams, -, hslots, hrest⟩ := h
  refine i.text_eq ?_
  by_contra hnone
  rw [not_or, not_not, not_not] at hnone
  refine hparams ?_
  rw [hnone.1] at hslots
  rw [hnone.2] at hrest
  have hparameters : r.parameters = [] := by
    have hlength := congrArg List.length hslots
    rw [List.map_nil, List.length_nil, List.length_range'] at hlength
    exact List.length_eq_zero_iff.1 hlength.symm
  have hvariadic : r.variadic = none := by simpa using hrest.symm
  simp [Recipe.params, hparameters, hvariadic]

/-- **A function asks for as many arguments as its recipe needs.** -/
theorem Intake.Of.required {r : Recipe} {i? : Option Intake} (h : Intake.Of r i?) :
    i?.elim 0 Intake.required = leastCount r := by
  cases i? with
  | none =>
    obtain ⟨hparameters, hvariadic⟩ := List.append_eq_nil_iff.1 h
    have hnone : r.variadic = none := by simpa using hvariadic
    have hnil : r.parameters = [] := by simpa using hparameters
    simp [leastCount, hnone, Recipe.required, hnil]
  | some i =>
    obtain ⟨-, hleast, -, -⟩ := h
    unfold leastOf at hleast
    rw [Option.elim_some, Intake.required]
    split at hleast
    · rename_i hzero
      obtain hnone : none = i.least := Except.ok.inj hleast
      rw [← hnone, hzero]
      rfl
    · obtain ⟨labels, -, hleast⟩ := ok_of_bind hleast
      obtain hsome : some _ = i.least := Except.ok.inj hleast
      rw [← hsome]
      rfl

end Script

namespace Made

variable {items : List Item} {p : Program} {s : Script} {u : Shell.Names} (h : Made items p s u)
  (hparams : s.Parameters p)

include h hparams

/-- Each recipe with its function: the names of the function, and how it takes its arguments. -/
theorem functions_intakes : List.Forall₂ (fun x f => f.Of u p x.1 x.2 ∧ Script.Intake.Of x.2 f.intake)
    (recipesIn items) s.functions := by
  have hintakes := hparams.functions
  rw [h.program.items] at hintakes
  exact h.functions.mp (fun _ _ hof hintake => ⟨hof, hintake⟩) hintakes

/-- Each target with its case: the function that it calls, and how many arguments it drops. -/
theorem cases_consumptions : List.Forall₂ (fun target c => c.target = target ∧
    u.find? c.function = some ("FUN_" ++ target) ∧
    c.consumption = Script.consumptionOf ((p.parameters.find? target).getD [])) p.targets s.cases :=
  h.script.cases.mp (fun _ _ hname hc => ⟨hc.1, hname, hc.2⟩) hparams.cases

end Made

end Justfile
