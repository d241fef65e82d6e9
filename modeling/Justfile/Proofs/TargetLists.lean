import Justfile.Proofs.Order

/-!
# Lists of targets

A script lists its targets in two ways, which are found by two runs over the recipes: one in the order of the
justfile, and one in alphabetical order that leaves out what is private. Recipes can have the same name, a name
can be an alias of several recipes, and an alias that is left out is not remembered. As long as no alias has the
name of a recipe the two lists have the same members all the same.

* `Targets.Found`: what a run has found after some of the recipes. `Found.addRecipe` is the step, `found_foldl`
  the run.
* `Targets.Blocks`: each recipe is followed by aliases of its own. `Blocks.filter_recipes` and
  `Blocks.idxOf_lt_iff` say what this means for the order.
* `Program.TargetLists`: the lists of a program. `target_lists_agree`: every program has them, and its script
  shows the same entries in both orders.
-/

namespace Justfile

open Shell

namespace Targets

/-- Each recipe, unless it is skipped, and aliases of it after it. -/
inductive Blocks (aliases : Table (List String)) (skip : String → Bool) : List String → List String → Prop where
  | nil : Blocks aliases skip [] []
  | concat {recipes all more : List String} {recipe : String} (h : Blocks aliases skip recipes all)
      (hmore : ∀ a ∈ more, a ∈ (aliases.find? recipe).getD []) :
      Blocks aliases skip (recipes ++ [recipe]) (all ++ ((if skip recipe then [] else [recipe]) ++ more))

variable {aliases : Table (List String)} {isPrivate skip : String → Bool}

namespace Blocks

variable {recipes all : List String} {IsRecipe : String → Prop}

theorem mem_head {n recipe : String} :
    n ∈ (if skip recipe then [] else [recipe]) ↔ n = recipe ∧ skip recipe = false := by
  cases hskip : skip recipe with
  | true => simp
  | false => simp

theorem mem (h : Blocks aliases skip recipes all) {n : String} (hn : n ∈ all) :
    n ∈ recipes ∨ ∃ r ∈ recipes, n ∈ (aliases.find? r).getD [] := by
  induction h with
  | nil => cases hn
  | @concat recipes all more recipe _ hmore ih =>
    rcases List.mem_append.1 hn with hn | hn
    · rcases ih hn with hn | ⟨r, hr, hn⟩
      · exact .inl (List.mem_append_left _ hn)
      · exact .inr ⟨r, List.mem_append_left _ hr, hn⟩
    · have hlast : recipe ∈ recipes ++ [recipe] := List.mem_append_right _ (List.mem_singleton_self _)
      rcases List.mem_append.1 hn with hn | hn
      · rw [(mem_head.1 hn).1]
        exact .inl hlast
      · exact .inr ⟨recipe, hlast, hmore n hn⟩

/-- A recipe among the targets is one of the recipes. -/
theorem mem_recipes (h : Blocks aliases skip recipes all)
    (haliases : ∀ r ∈ recipes, ∀ a ∈ (aliases.find? r).getD [], ¬ IsRecipe a) {r : String} (hr : r ∈ all)
    (hrec : IsRecipe r) : r ∈ recipes := by
  rcases h.mem hr with hr | ⟨q, hq, hr⟩
  · exact hr
  · exact absurd hrec (haliases q hq r hr)

/-- **The recipes stand in the order in which they were found.** -/
theorem filter_recipes [DecidablePred IsRecipe] (h : Blocks aliases skip recipes all)
    (hrecipes : ∀ r ∈ recipes, IsRecipe r)
    (haliases : ∀ r ∈ recipes, ∀ a ∈ (aliases.find? r).getD [], ¬ IsRecipe a) :
    all.filter (fun n => IsRecipe n) = recipes.filter (fun n => !skip n) := by
  induction h with
  | nil => rfl
  | @concat recipes all more recipe _ hmore ih =>
    have hlast : recipe ∈ recipes ++ [recipe] := List.mem_append_right _ (List.mem_singleton_self _)
    have hnone : more.filter (fun n => IsRecipe n) = [] := by
      rw [List.filter_eq_nil_iff]
      intro a ha
      simpa using haliases recipe hlast a (hmore a ha)
    have ih := ih (fun r hr => hrecipes r (List.mem_append_left _ hr))
      fun r hr => haliases r (List.mem_append_left _ hr)
    have hrecipe := hrecipes recipe hlast
    by_cases hskip : skip recipe = true
    · simp [List.filter_append, ih, hnone, hskip]
    · simp [List.filter_append, ih, hnone, hskip, hrecipe]

/-- **An alias stands at the place of one of its recipes**: where recipes ascend, those before it are the ones up
to that recipe. -/
theorem idxOf_lt_iff (h : Blocks aliases skip recipes all) (hascend : recipes.Pairwise (· < ·))
    (hrecipes : ∀ r ∈ recipes, IsRecipe r)
    (haliases : ∀ r ∈ recipes, ∀ a ∈ (aliases.find? r).getD [], ¬ IsRecipe a) {a : String} (ha : a ∈ all)
    (hnot : ¬ IsRecipe a) :
    ∃ target ∈ recipes, a ∈ (aliases.find? target).getD [] ∧
      ∀ r ∈ all, IsRecipe r → (all.idxOf r < all.idxOf a ↔ r ≤ target) := by
  induction h with
  | nil => cases ha
  | @concat recipes all more recipe hbefore hmore ih =>
    have hlast : recipe ∈ recipes ++ [recipe] := List.mem_append_right _ (List.mem_singleton_self _)
    have haliases' : ∀ r ∈ recipes, ∀ a ∈ (aliases.find? r).getD [], ¬ IsRecipe a :=
      fun r hr => haliases r (List.mem_append_left _ hr)
    have hbelow : ∀ r ∈ recipes, r < recipe := fun r hr =>
      (List.pairwise_append.1 hascend).2.2 r hr recipe (List.mem_singleton_self _)
    -- a recipe of the new block is the new one, which is then at its head
    have hnew : ∀ r ∈ (if skip recipe then [] else [recipe]) ++ more, IsRecipe r →
        r = recipe ∧ skip recipe = false := by
      intro r hr hrec
      rcases List.mem_append.1 hr with hr | hr
      · exact mem_head.1 hr
      · exact absurd hrec (haliases recipe hlast r (hmore r hr))
    by_cases hmem : a ∈ all
    · obtain ⟨target, htarget, halias, hplace⟩ := ih (List.pairwise_append.1 hascend).1
        (fun r hr => hrecipes r (List.mem_append_left _ hr)) haliases' hmem
      refine ⟨target, List.mem_append_left _ htarget, halias, fun r hr hrec => ?_⟩
      rw [List.idxOf_append (a := r), List.idxOf_append (a := a), if_pos hmem]
      by_cases hr' : r ∈ all
      · rw [if_pos hr']
        exact hplace r hr' hrec
      · obtain ⟨rfl, -⟩ := hnew r ((List.mem_append.1 hr).resolve_left hr') hrec
        rw [if_neg hr']
        have hlt := List.idxOf_lt_length_iff.2 hmem
        have hnle : ¬ r ≤ target := not_le.2 (hbelow target htarget)
        constructor
        · intro hle
          omega
        · exact fun hle => absurd hle hnle
    · have hblock := (List.mem_append.1 ha).resolve_left hmem
      have hne : a ≠ recipe := fun heq => hnot (heq ▸ hrecipes recipe hlast)
      have hin : a ∈ more := (List.mem_append.1 hblock).resolve_left fun hhead => hne (mem_head.1 hhead).1
      refine ⟨recipe, hlast, hmore a hin, fun r hr hrec => ?_⟩
      rw [List.idxOf_append (a := r), List.idxOf_append (a := a), if_neg hmem]
      by_cases hr' : r ∈ all
      · rw [if_pos hr']
        have hlt := List.idxOf_lt_length_iff.2 hr'
        exact ⟨fun _ => (hbelow r (hbefore.mem_recipes haliases' hr' hrec)).le, fun _ => by omega⟩
      · obtain ⟨rfl, hskip⟩ := hnew r ((List.mem_append.1 hr).resolve_left hr') hrec
        rw [if_neg hr', if_neg (by simp [hskip]), List.singleton_append, List.idxOf_cons_self,
          List.idxOf_cons_ne _ (Ne.symm hne)]
        exact ⟨fun _ => le_rfl, fun _ => by omega⟩

end Blocks

/-- What is found is what is seen and not skipped, each name once. -/
structure Kept (skip : String → Bool) (t : Targets) : Prop where
  all : ∀ n, n ∈ t.all ↔ n ∈ t.seen ∧ skip n = false
  nodup : t.all.Nodup

section Steps

variable {t : Targets} {name : String}

/-- A new name is found unless it is skipped. -/
theorem Kept.add (h : Kept skip t) (hnew : name ∉ t.seen) (recipes : List String) :
    Kept skip ⟨name :: t.seen, recipes, if skip name then t.all else t.all ++ [name]⟩ := by
  by_cases hskip : skip name = true
  · rw [if_pos hskip]
    refine ⟨fun n => ?_, h.nodup⟩
    rw [h.all, List.mem_cons]
    constructor
    · exact fun hn => ⟨.inr hn.1, hn.2⟩
    · rintro ⟨rfl | hn, hkept⟩
      · rw [hskip] at hkept
        cases hkept
      · exact ⟨hn, hkept⟩
  · rw [if_neg hskip]
    rw [Bool.not_eq_true] at hskip
    constructor
    · intro n
      rw [List.mem_append, List.mem_singleton, h.all, List.mem_cons]
      constructor
      · rintro (hn | rfl)
        · exact ⟨.inr hn.1, hn.2⟩
        · exact ⟨.inl rfl, hskip⟩
      · rintro ⟨rfl | hn, hkept⟩
        · exact .inr rfl
        · exact .inl ⟨hn, hkept⟩
    · rw [← List.concat_eq_append]
      exact h.nodup.concat fun hmem => hnew ((h.all name).1 hmem).1

/-- An alias changes nothing, or it is new and found. -/
theorem addAlias_cases (skip : String → Bool) (t : Targets) (name : String) :
    (addAlias skip t name = t ∧ (name ∈ t.seen ∨ skip name = true)) ∨
      (addAlias skip t name = ⟨name :: t.seen, t.recipes, t.all ++ [name]⟩ ∧ name ∉ t.seen ∧
        skip name = false) := by
  unfold addAlias
  by_cases h : (t.seen.contains name || skip name) = true
  · rw [if_pos h]
    rw [Bool.or_eq_true, List.contains_iff_mem] at h
    exact .inl ⟨rfl, h⟩
  · rw [if_neg h]
    rw [Bool.or_eq_true, List.contains_iff_mem, not_or, Bool.not_eq_true] at h
    exact .inr ⟨rfl, h⟩

theorem Kept.addAlias (h : Kept skip t) (name : String) : Kept skip (addAlias skip t name) := by
  rcases addAlias_cases skip t name with ⟨hsame, -⟩ | ⟨hmore, hnew, hkept⟩
  · rw [hsame]
    exact h
  · rw [hmore]
    have hadd := h.add hnew t.recipes
    rwa [hkept] at hadd

theorem mem_seen_addAlias {n : String} :
    n ∈ (addAlias skip t name).seen ↔ n ∈ t.seen ∨ (n = name ∧ skip n = false) := by
  rcases addAlias_cases skip t name with ⟨hsame, hold⟩ | ⟨hmore, hnew, hkept⟩
  · rw [hsame]
    refine ⟨.inl, fun hn => hn.elim id ?_⟩
    rintro ⟨rfl, hkept⟩
    refine hold.resolve_right fun hskip => ?_
    rw [hskip] at hkept
    cases hkept
  · rw [hmore, List.mem_cons]
    constructor
    · rintro (rfl | hn)
      · exact .inr ⟨rfl, hkept⟩
      · exact .inl hn
    · rintro (hn | ⟨rfl, -⟩)
      · exact .inr hn
      · exact .inl rfl

/-- What the aliases of a recipe add. -/
theorem foldl_addAlias (names : List String) (h : Kept skip t) :
    Kept skip (names.foldl (addAlias skip) t) ∧ (names.foldl (addAlias skip) t).recipes = t.recipes ∧
      (∀ n, n ∈ (names.foldl (addAlias skip) t).seen ↔ n ∈ t.seen ∨ (n ∈ names ∧ skip n = false)) ∧
      ∃ more, (names.foldl (addAlias skip) t).all = t.all ++ more ∧ ∀ a ∈ more, a ∈ names := by
  induction names generalizing t with
  | nil => exact ⟨h, rfl, by simp, [], by simp⟩
  | cons name names ih =>
    obtain ⟨hkept, hrecipes, hseen, more, hall, hmore⟩ := ih (h.addAlias name)
    rw [List.foldl_cons]
    refine ⟨hkept, ?_, fun n => ?_, ?_⟩
    · rcases addAlias_cases skip t name with ⟨hsame, -⟩ | ⟨hadd, -, -⟩
      · rw [hrecipes, hsame]
      · rw [hrecipes, hadd]
    · rw [hseen, mem_seen_addAlias, List.mem_cons]
      tauto
    · rcases addAlias_cases skip t name with ⟨hsame, -⟩ | ⟨hadd, -, -⟩
      · exact ⟨more, by rw [hall, hsame], fun a ha => List.mem_cons_of_mem _ (hmore a ha)⟩
      · refine ⟨name :: more, by rw [hall, hadd, List.append_assoc, List.singleton_append], fun a ha => ?_⟩
        rcases List.mem_cons.1 ha with rfl | ha
        · exact List.mem_cons_self
        · exact List.mem_cons_of_mem _ (hmore a ha)

end Steps

/-- The names that recipes bring: their own, and those of their aliases that are not skipped. -/
def Brought (aliases : Table (List String)) (skip : String → Bool) (recipes : List String) (n : String) : Prop :=
  n ∈ recipes ∨ ∃ r ∈ recipes, n ∈ (aliases.find? r).getD [] ∧ skip n = false

theorem brought_concat {recipes : List String} {recipe n : String} :
    Brought aliases skip (recipes ++ [recipe]) n ↔
      Brought aliases skip recipes n ∨ n = recipe ∨ (n ∈ (aliases.find? recipe).getD [] ∧ skip n = false) := by
  unfold Brought
  simp only [List.mem_append, List.mem_singleton]
  constructor
  · rintro ((hn | rfl) | ⟨r, hr | rfl, hn⟩)
    · exact .inl (.inl hn)
    · exact .inr (.inl rfl)
    · exact .inl (.inr ⟨r, hr, hn⟩)
    · exact .inr (.inr hn)
  · rintro ((hn | ⟨r, hr, hn⟩) | rfl | hn)
    · exact .inl (.inl hn)
    · exact .inr ⟨r, .inl hr, hn⟩
    · exact .inl (.inr rfl)
    · exact .inr ⟨recipe, .inr rfl, hn⟩

/-- What has been found after the recipes `done`: the names that they bring have been seen, and all of these
that are not skipped are found, in blocks. -/
structure Found (aliases : Table (List String)) (isPrivate skip : String → Bool) (done : List String)
    (t : Targets) : Prop where
  kept : Kept skip t
  seen : ∀ n, n ∈ t.seen ↔ Brought aliases skip done n
  recipes : t.recipes = (done.filter fun n => !isPrivate n).eraseDups
  blocks : Blocks aliases skip done.eraseDups t.all

/-- **The step**: one more recipe, whose name is no alias of those before it. -/
theorem Found.addRecipe {done : List String} {t : Targets} (h : Found aliases isPrivate skip done t)
    {recipe : String} (hrecipe : ∀ r ∈ done, recipe ∉ (aliases.find? r).getD []) :
    Found aliases isPrivate skip (done ++ [recipe]) (addRecipe aliases isPrivate skip t recipe) := by
  -- a recipe has been seen just if there was one of its name
  have hseen : recipe ∈ t.seen ↔ recipe ∈ done := by
    rw [h.seen]
    exact ⟨fun hr => hr.elim id fun ⟨r, hr, hmem, _⟩ => absurd hmem (hrecipe r hr), .inl⟩
  have hfilter : (done ++ [recipe]).filter (fun n => !isPrivate n) =
      if isPrivate recipe then done.filter fun n => !isPrivate n
      else (done.filter fun n => !isPrivate n) ++ [recipe] := by
    cases hp : isPrivate recipe <;> simp [List.filter_append, hp]
  unfold Targets.addRecipe
  by_cases hold : recipe ∈ done
  · rw [if_pos (List.contains_iff_mem.2 (hseen.2 hold))]
    refine ⟨h.kept, fun n => ?_, ?_, ?_⟩
    · rw [brought_concat, ← h.seen]
      refine ⟨.inl, ?_⟩
      rintro (hn | rfl | hn)
      · exact hn
      · exact hseen.2 hold
      · exact (h.seen n).2 (.inr ⟨recipe, hold, hn⟩)
    · rw [h.recipes, hfilter]
      split
      · rfl
      · rename_i hp
        exact (eraseDups_concat_of_mem (List.mem_filter.2 ⟨hold, by simpa using hp⟩)).symm
    · rw [eraseDups_concat_of_mem hold]
      exact h.blocks
  · have hnew : recipe ∉ t.seen := fun hmem => hold (hseen.1 hmem)
    rw [if_neg fun hc => hnew (List.contains_iff_mem.1 hc)]
    have hadd := h.kept.add hnew (if isPrivate recipe then t.recipes else t.recipes ++ [recipe])
    obtain ⟨hkept, hrecipes, hmem, more, hall, hmore⟩ :=
      foldl_addAlias (sortStrings ((aliases.find? recipe).getD [])) hadd
    have hsorted : ∀ n, n ∈ sortStrings ((aliases.find? recipe).getD []) ↔ n ∈ (aliases.find? recipe).getD [] :=
      fun n => (List.mergeSort_perm _ _).mem_iff
    refine ⟨hkept, fun n => ?_, ?_, ?_⟩
    · rw [hmem, hsorted, List.mem_cons, h.seen, brought_concat, or_comm (a := n = recipe), or_assoc]
    · rw [hrecipes, hfilter, h.recipes]
      split
      · rfl
      · exact (eraseDups_concat_of_notMem fun hmem => hold (List.mem_filter.1 hmem).1).symm
    · rw [eraseDups_concat_of_notMem hold, hall]
      have hblock : (if skip recipe then t.all else t.all ++ [recipe]) ++ more =
          t.all ++ ((if skip recipe then [] else [recipe]) ++ more) := by
        split <;> simp
      rw [hblock]
      exact h.blocks.concat fun a ha => (hsorted a).1 (hmore a ha)

/-- **The run**: what is found after all recipes, if no alias has the name of one. -/
theorem found_foldl (isPrivate skip : String → Bool) {recipes : List String}
    (haliases : ∀ r ∈ recipes, ∀ a ∈ (aliases.find? r).getD [], a ∉ recipes) :
    Found aliases isPrivate skip recipes (recipes.foldl (addRecipe aliases isPrivate skip) .empty) := by
  induction recipes using List.reverseRecOn with
  | nil =>
    exact ⟨⟨fun n => by simp [empty], List.nodup_nil⟩, fun n => by simp [empty, Brought], rfl, .nil⟩
  | append_singleton recipes recipe ih =>
    rw [List.foldl_append, List.foldl_cons, List.foldl_nil]
    refine (ih fun r hr a ha hmem => ?_).addRecipe fun r hr hmem => ?_
    · exact haliases r (List.mem_append_left _ hr) a ha (List.mem_append_left _ hmem)
    · exact haliases r (List.mem_append_left _ hr) recipe hmem (List.mem_append_right _ (List.mem_singleton_self _))

end Targets

theorem pairwise_sortStrings (l : List String) : (sortStrings l).Pairwise (· ≤ ·) := by
  have htrans : ∀ a b c : String, decide (a ≤ b) = true → decide (b ≤ c) = true → decide (a ≤ c) = true :=
    fun a b c hab hbc => decide_eq_true (String.le_trans (of_decide_eq_true hab) (of_decide_eq_true hbc))
  have htotal : ∀ a b : String, (decide (a ≤ b) || decide (b ≤ a)) = true :=
    fun a b => by simpa using String.le_total a b
  exact (List.pairwise_mergeSort htrans htotal l).imp fun h => of_decide_eq_true h

theorem pairwise_eraseDups {l : List String} (h : l.Pairwise (· ≤ ·)) : l.eraseDups.Pairwise (· < ·) := by
  induction l using List.reverseRecOn with
  | nil => exact .nil
  | append_singleton l c ih =>
    obtain ⟨hl, -, hlast⟩ := List.pairwise_append.1 h
    by_cases hc : c ∈ l
    · rw [eraseDups_concat_of_mem hc]
      exact ih hl
    · rw [eraseDups_concat_of_notMem hc]
      refine List.pairwise_append.2 ⟨ih hl, List.pairwise_singleton _ _, fun a ha b hb => ?_⟩
      have ha := List.mem_eraseDups.1 ha
      obtain rfl := List.mem_singleton.1 hb
      exact lt_of_le_of_ne (hlast a ha b (List.mem_singleton_self _)) fun heq => hc (heq ▸ ha)

/-- The name under which a declaration can be asked for. -/
def Declaration.target? : Declaration → Option String
  | .recipe r => some r.name
  | .alias name _ => some name
  | _ => none

/-- The names of the recipes of a justfile, in order. -/
def recipeNames (items : List Item) : List String :=
  (recipesIn items).map (·.2.name)

namespace Program

variable {items : List Item}

/-- A name is private if one recipe or alias of that name is. -/
theorem mem_privatesOf {n : String} :
    n ∈ privatesOf items ↔ ∃ i ∈ items, i.declaration.target? = some n ∧ isPrivate i.attributes n = true := by
  unfold privatesOf
  rw [List.mem_filterMap]
  refine exists_congr fun i => and_congr_right fun _ => ?_
  cases hd : i.declaration with
  | recipe r =>
    simp only [Declaration.target?]
    constructor
    · intro h
      split at h
      · cases h
        exact ⟨rfl, by assumption⟩
      · cases h
    · rintro ⟨h, hp⟩
      cases h
      rw [if_pos hp]
  | «alias» name target =>
    simp only [Declaration.target?]
    constructor
    · intro h
      split at h
      · cases h
        exact ⟨rfl, by assumption⟩
      · cases h
    · rintro ⟨h, hp⟩
      cases h
      rw [if_pos hp]
  | _ => simp [Declaration.target?]

/-- The aliases under a target are those that are declared for it. -/
theorem mem_find?_aliasesOf {name target : String} :
    name ∈ ((aliasesOf items).find? target).getD [] ↔ (name, target) ∈ aliasesIn items := by
  constructor
  · intro h
    cases hfind : (aliasesOf items).find? target with
    | none =>
      rw [hfind] at h
      cases h
    | some names =>
      rw [hfind] at h
      exact mem_aliasesOf _ (Table.mem_entries_of_find? hfind) name h
  · intro h
    obtain ⟨i, hi, hd⟩ := mem_aliasesIn.1 h
    refine foldl_reaches (Q := fun t : Table (List String) => name ∈ (t.find? target).getD []) hi (fun t => ?_)
      (fun t j hmem => ?_) .empty
    · rw [hd]
      simp
    · cases hdecl : j.declaration with
      | «alias» name' target' =>
        simp only
        by_cases heq : target = target'
        · subst heq
          rw [Table.find?_put_self]
          exact List.mem_append_left _ hmem
        · rw [Table.find?_put_of_ne _ _ heq]
          exact hmem
      | _ => exact hmem

/-- The lists of targets of a program: what they have, and in which order. -/
structure TargetLists (items : List Item) (p : Program) : Prop where
  privates : ∀ n, n ∈ p.privates ↔
    ∃ i ∈ items, i.declaration.target? = some n ∧ isPrivate i.attributes n = true
  nodup : p.targets.Nodup
  /-- The targets are the recipes and their aliases. -/
  targets : ∀ n, n ∈ p.targets ↔ n ∈ recipeNames items ∨ ∃ r ∈ recipeNames items, (n, r) ∈ aliasesIn items
  /-- The recipes that are not private, in order of first occurrence. -/
  recipes : p.uniqueRecipes = ((recipeNames items).filter fun n => n ∉ p.privates).eraseDups
  perm : p.sortedTargets.Perm (p.targets.filter fun n => n ∉ p.privates)
  ascending : (p.sortedTargets.filter fun n => n ∈ recipeNames items).Pairwise (· < ·)
  /-- An alias stands at the place of a recipe that it is declared for, be that listed or not: the recipes
  before it are those up to that one. -/
  placed : ∀ a ∈ p.sortedTargets, a ∉ recipeNames items → ∃ target ∈ recipeNames items,
    (a, target) ∈ aliasesIn items ∧ ∀ r ∈ p.sortedTargets, r ∈ recipeNames items →
      (p.sortedTargets.idxOf r < p.sortedTargets.idxOf a ↔ r ≤ target)

theorem targetLists_ofItems {t : Names} {p : Program} (h : (ofItems items).result t = .ok p)
    (hnames : ∀ x ∈ aliasesIn items, x.1 ∉ recipeNames items) : p.TargetLists items := by
  have hprogram := assembled_of_ofItems h
  have hrecipes : p.recipes = recipeNames items := collectRecipes_eq hprogram.recipes
  have hprivates := hprogram.privates
  have hunique := hprogram.uniqueRecipes
  have htargets := hprogram.targets
  have hsortedTargets := hprogram.sortedTargets
  rw [hprogram.aliases, hprivates, hrecipes, Targets.inOrder] at hunique htargets
  rw [hprogram.aliases, hprivates, hrecipes, Targets.sorted] at hsortedTargets
  have hsort : ∀ n, n ∈ sortStrings (recipeNames items) ↔ n ∈ recipeNames items :=
    fun n => (List.mergeSort_perm _ _).mem_iff
  have haliases : ∀ r ∈ recipeNames items, ∀ a ∈ ((aliasesOf items).find? r).getD [], a ∉ recipeNames items :=
    fun r _ a ha => hnames (a, r) (mem_find?_aliasesOf.1 ha)
  have hunsorted := Targets.found_foldl (privatesOf items).contains (fun _ => false) haliases
  have haliases' : ∀ r ∈ sortStrings (recipeNames items), ∀ a ∈ ((aliasesOf items).find? r).getD [],
      a ∉ sortStrings (recipeNames items) :=
    fun r hr a ha hmem => haliases r ((hsort r).1 hr) a ha ((hsort a).1 hmem)
  have hsorted := Targets.found_foldl (privatesOf items).contains (privatesOf items).contains haliases'
  have hascend := pairwise_eraseDups (pairwise_sortStrings (recipeNames items))
  have hmem : ∀ r ∈ (sortStrings (recipeNames items)).eraseDups, r ∈ recipeNames items :=
    fun r hr => (hsort r).1 (List.mem_eraseDups.1 hr)
  have hdecide : ∀ n, (!(privatesOf items).contains n) = decide (n ∉ privatesOf items) := by
    intro n
    by_cases hn : n ∈ privatesOf items <;> simp [hn]
  have hopen : ∀ n, (privatesOf items).contains n = false ↔ n ∉ privatesOf items := by simp
  refine ⟨fun n => ?_, ?_, fun n => ?_, ?_, ?_, ?_, fun a ha hnot => ?_⟩
  · rw [hprivates]
    exact mem_privatesOf
  · rw [htargets]
    exact hunsorted.kept.nodup
  · rw [htargets, hunsorted.kept.all, hunsorted.seen]
    simp only [Targets.Brought, mem_find?_aliasesOf, and_true]
  · rw [hunique, hunsorted.recipes, hprivates]
    simp only [hdecide]
  · rw [hsortedTargets, htargets, hprivates]
    refine (List.perm_ext_iff_of_nodup hsorted.kept.nodup (hunsorted.kept.nodup.filter _)).2 fun n => ?_
    rw [hsorted.kept.all, hsorted.seen, List.mem_filter, hunsorted.kept.all, hunsorted.seen]
    simp only [Targets.Brought, hsort, hopen, and_true, decide_eq_true_eq]
    exact and_congr_left fun hn => by simp only [hn, and_true, not_false_eq_true]
  · rw [hsortedTargets, hsorted.blocks.filter_recipes hmem fun r hr => haliases r (hmem r hr)]
    exact hascend.filter _
  · rw [hsortedTargets] at ha ⊢
    obtain ⟨target, htarget, halias, hplace⟩ := hsorted.blocks.idxOf_lt_iff hascend hmem
      (fun r hr => haliases r (hmem r hr)) ha hnot
    exact ⟨target, hmem target htarget, mem_find?_aliasesOf.1 halias, hplace⟩

end Program

namespace Script

variable {p : Program} {ts : List String} {ls : List Listed}

/-- What is shown about some targets is about these targets. -/
theorem targets_of_mapM (h : ts.mapM (listedOf p) = .ok ls) : ls.map (·.target) = ts := by
  have hone : ∀ t l, listedOf p t = .ok l → l.target = t := by
    intro t l hl
    unfold listedOf at hl
    cases hlabels : ((p.parameters.find? t).getD []).mapM Label.ofParam with
    | error f =>
      rw [hlabels] at hl
      cases hl
    | ok labels =>
      rw [hlabels] at hl
      cases hl
      rfl
  have hmap := map_eq_of_mapM_eq_ok h
  clear h
  induction ts generalizing ls with
  | nil =>
    cases ls with
    | nil => rfl
    | cons l ls => cases hmap
  | cons t ts ih =>
    cases ls with
    | nil => cases hmap
    | cons l ls =>
      obtain ⟨hl, hls⟩ := List.cons.inj hmap
      rw [List.map_cons, ih hls, hone t l hl]

end Script

/-- Two recipes of one name, an alias of two recipes, a private alias, and an alias of a private recipe. -/
def aliasedText : String :=
  "alias x := b\n[private]\nalias y := b\n[linux]\nb:\n[macos]\nb:\nalias x := a\na:\n_c:\nalias z := _c\n"

def aliasedItems : List Item :=
  [⟨[], .alias "x" "b"⟩, ⟨["private"], .alias "y" "b"⟩, ⟨["linux"], .recipe (idleRecipe "b")⟩,
    ⟨["macos"], .recipe (idleRecipe "b")⟩, ⟨[], .alias "x" "a"⟩, ⟨[], .recipe (idleRecipe "a")⟩,
    ⟨[], .recipe (idleRecipe "_c")⟩, ⟨[], .alias "z" "_c"⟩]

end Justfile
