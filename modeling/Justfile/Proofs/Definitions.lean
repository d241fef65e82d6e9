import Justfile.Proofs.Linking

/-!
# Functions that are defined twice

A recipe defines a function, an alias another, and for each name that has recipes for platforms a dispatcher
is defined. The function of a recipe for a platform is named after both, glued with an underscore, so that it
can have the name of another recipe; and the check for recipes of one name leaves out those for platforms.

* `Platform.glued_inj`: recipe and platform can be read back from the name of such a function.
* `Program.collectRecipes_distinct`: what the check for recipes of one name does see.
* `Made.nodup_defined_iff`: two functions of a script have one name just if they had before shell names were given.
* `Apart`: what keeps the functions of a justfile apart.
* `functions_distinct_iff`: no function is defined twice just if they are kept apart.
-/

namespace Justfile

open Shell Shell.Names

namespace Platform

theorem name_injective : Function.Injective name := by
  intro p q h
  have hp := ofName?_name p
  rw [h, ofName?_name q] at hp
  exact (Option.some.inj hp).symm

theorem eq_singleton_of_mem {platforms : List Platform} {platform : Platform} (hone : platforms.length ≤ 1)
    (h : platform ∈ platforms) : platforms = [platform] := by
  match platforms, hone, h with
  | [_], _, h => rw [List.mem_singleton.1 h]

theorem underscore_notMem_name (platform : Platform) : '_' ∉ platform.name.toList := by
  cases platform <;> decide

/-- **A name that is glued from a recipe and a platform tells both**: the platform comes after the last
underscore. -/
theorem glued_inj {m n : String} {p q : Platform} (h : m ++ "_" ++ p.name = n ++ "_" ++ q.name) :
    m = n ∧ p = q := by
  have hlist : m.toList ++ '_' :: p.name.toList = n.toList ++ '_' :: q.name.toList := by
    simpa [String.toList_append] using congrArg String.toList h
  obtain ⟨hname, hplatform⟩ :=
    append_cons_inj_of_notMem (underscore_notMem_name p) (underscore_notMem_name q) hlist
  exact ⟨String.toList_injective hname, name_injective (String.toList_injective hplatform)⟩

end Platform

/-- The name of the function of a recipe with some attributes. -/
def functionOf (x : List String × Recipe) : String :=
  Platform.functionName x.2.name (Platform.ofAttributes x.1)

theorem functionOf_of_nil {x : List String × Recipe} (h : Platform.ofAttributes x.1 = []) :
    functionOf x = x.2.name := by
  rw [functionOf, h]
  rfl

theorem functionOf_of_mem {x : List String × Recipe} {platform : Platform}
    (hone : (Platform.ofAttributes x.1).length ≤ 1) (h : platform ∈ Platform.ofAttributes x.1) :
    functionOf x = x.2.name ++ "_" ++ platform.name := by
  rw [functionOf, Platform.eq_singleton_of_mem hone h]
  rfl

/-- **Recipes without platforms are new.** Unless duplicates are allowed, no recipe before one without platforms
has its name. -/
theorem Program.collectRecipes_distinct {items : List Item} {found names : List String}
    (h : collectRecipes false found items = .ok names) :
    (∀ x ∈ recipesIn items, Platform.ofAttributes x.1 = [] → x.2.name ∉ found) ∧
      (recipesIn items).Pairwise fun x y => Platform.ofAttributes y.1 = [] → x.2.name ≠ y.2.name := by
  fun_induction collectRecipes false found items with
  | case1 => exact ⟨fun x hx => absurd hx List.not_mem_nil, .nil⟩
  | case2 => cases h
  | case3 found r attributes rest hnew ih =>
    obtain ⟨hfound, hrest⟩ := ih h
    refine ⟨fun x hx hplain => ?_, List.Pairwise.cons (fun x hx hplain heq => ?_) hrest⟩
    · rcases List.mem_cons.1 hx with rfl | hx
      · intro hmem
        refine hnew ?_
        simp [hmem, hplain]
      · exact fun hmem => hfound x hx hplain (List.mem_append_left _ hmem)
    · refine hfound x hx hplain ?_
      rw [← heq]
      exact List.mem_append_right found (List.mem_singleton_self _)
  | case4 found i rest hnot ih =>
    have hne : ∀ r, i.declaration ≠ .recipe r := by
      obtain ⟨attributes, declaration⟩ := i
      rintro r rfl
      exact hnot attributes r rfl
    rw [recipesIn_cons_of_ne hne]
    exact ih h

/-- The functions of a script by what they are for. -/
theorem Script.defined_perm (s : Script) :
    s.defined.Perm (s.functions.map (·.name) ++ (s.aliases.map (·.name) ++ s.dispatchers.map (·.name))) := by
  unfold Script.defined Script.functions Script.aliases Script.dispatchers
  induction s.entries with
  | nil => exact .nil
  | cons e es ih =>
    cases e with
    | recipe f => exact ih.cons _
    | comment s => exact ih
    | «alias» f => exact (ih.cons f.name).trans List.perm_middle.symm
    | dispatcher d =>
      refine (ih.cons d.name).trans ?_
      rw [← List.append_assoc]
      refine List.perm_middle.symm.trans ?_
      rw [List.append_assoc]
      rfl

/-- What keeps the functions of a justfile apart: two recipes for platforms differ in their names or in their
platforms; no name has recipes with and without platforms; and no recipe and no alias has the name that is glued
from a recipe and its platform. -/
structure Apart (items : List Item) : Prop where
  variants : (recipesIn items).Pairwise fun x y => x.2.name = y.2.name →
    Platform.ofAttributes x.1 = Platform.ofAttributes y.1 → Platform.ofAttributes x.1 = []
  kinds : ∀ x ∈ recipesIn items, ∀ y ∈ recipesIn items, x.2.name = y.2.name →
    Platform.ofAttributes x.1 = [] → Platform.ofAttributes y.1 = []
  glued : ∀ x ∈ recipesIn items, ∀ platform ∈ Platform.ofAttributes x.1,
    (∀ y ∈ recipesIn items, y.2.name ≠ x.2.name ++ "_" ++ platform.name) ∧
      ∀ y ∈ aliasesIn items, y.1 ≠ x.2.name ++ "_" ++ platform.name

/-- The names that the functions of a justfile are for: those of recipes, of aliases and of dispatchers. -/
def definedIn (items : List Item) : List String :=
  (recipesIn items).map functionOf ++ ((aliasesIn items).map (·.1) ++ (Program.platformsOf items).keys)

section Distinct

variable {items : List Item} (hone : ∀ x ∈ recipesIn items, (Platform.ofAttributes x.1).length ≤ 1)

include hone

/-- Functions that are defined once are kept apart. -/
theorem apart_of_nodup (h : (definedIn items).Nodup) : Apart items := by
  obtain ⟨hrecipes, -, hothers⟩ := List.nodup_append.1 h
  have halias : ∀ x ∈ recipesIn items, ∀ y ∈ aliasesIn items, functionOf x ≠ y.1 := fun x hx y hy =>
    hothers _ (List.mem_map_of_mem hx) _ (List.mem_append_left _ (List.mem_map_of_mem hy))
  have hdispatcher : ∀ x ∈ recipesIn items, ∀ y ∈ recipesIn items, Platform.ofAttributes y.1 ≠ [] →
      functionOf x ≠ y.2.name := fun x hx y hy hplatforms =>
    hothers _ (List.mem_map_of_mem hx) _ (List.mem_append_right _ (Program.mem_keys_platformsOf hy hplatforms))
  refine ⟨(List.pairwise_map.1 hrecipes).imp fun {x y} hne hname hsame => ?_, fun x hx y hy hname hplain => ?_,
    fun x hx platform hplatform => ⟨fun y hy hname => ?_, fun y hy hname => ?_⟩⟩
  · exact absurd (by rw [functionOf, functionOf, hname, hsame]) hne
  · -- the dispatcher for the name would be a second function beside that of the recipe without platforms
    by_contra hplatforms
    exact hdispatcher x hx y hy hplatforms ((functionOf_of_nil hplain).trans hname)
  · have hglued := functionOf_of_mem (hone x hx) hplatform
    by_cases hplain : Platform.ofAttributes y.1 = []
    · have heq : x = y := List.inj_on_of_nodup_map hrecipes hx hy
        (hglued.trans (hname.symm.trans (functionOf_of_nil hplain).symm))
      rw [heq, hplain] at hplatform
      cases hplatform
    · exact hdispatcher x hx y hy hplain (hglued.trans hname.symm)
  · exact halias x hx y hy ((functionOf_of_mem (hone x hx) hplatform).trans hname.symm)

/-- The functions of two recipes that are kept apart have different names. -/
theorem Apart.functionOf_ne (h : Apart items) {x y : List String × Recipe} (hx : x ∈ recipesIn items)
    (hy : y ∈ recipesIn items) (hplain : Platform.ofAttributes y.1 = [] → x.2.name ≠ y.2.name)
    (hvariant : x.2.name = y.2.name → Platform.ofAttributes x.1 = Platform.ofAttributes y.1 →
      Platform.ofAttributes x.1 = []) : functionOf x ≠ functionOf y := by
  intro heq
  -- a function has the name of its recipe or a glued one, and a glued one tells what it was glued from
  by_cases hx' : Platform.ofAttributes x.1 = [] <;> by_cases hy' : Platform.ofAttributes y.1 = []
  · exact hplain hy' (by rw [← functionOf_of_nil hx', heq, functionOf_of_nil hy'])
  · obtain ⟨q, hq⟩ := List.exists_mem_of_ne_nil _ hy'
    exact (h.glued y hy q hq).1 x hx (by rw [← functionOf_of_nil hx', heq, functionOf_of_mem (hone y hy) hq])
  · obtain ⟨q, hq⟩ := List.exists_mem_of_ne_nil _ hx'
    exact (h.glued x hx q hq).1 y hy (by rw [← functionOf_of_nil hy', ← heq, functionOf_of_mem (hone x hx) hq])
  · obtain ⟨p, hp⟩ := List.exists_mem_of_ne_nil _ hx'
    obtain ⟨q, hq⟩ := List.exists_mem_of_ne_nil _ hy'
    rw [functionOf_of_mem (hone x hx) hp, functionOf_of_mem (hone y hy) hq] at heq
    obtain ⟨hname, rfl⟩ := Platform.glued_inj heq
    refine hx' (hvariant hname ?_)
    rw [Platform.eq_singleton_of_mem (hone x hx) hp, Platform.eq_singleton_of_mem (hone y hy) hq]

/-- The function of a recipe that is kept apart is no dispatcher. -/
theorem Apart.functionOf_ne_name (h : Apart items) {x y : List String × Recipe} (hx : x ∈ recipesIn items)
    (hy : y ∈ recipesIn items) (hplatforms : Platform.ofAttributes y.1 ≠ []) : functionOf x ≠ y.2.name := by
  intro heq
  by_cases hx' : Platform.ofAttributes x.1 = []
  · exact hplatforms (h.kinds x hx y hy ((functionOf_of_nil hx').symm.trans heq) hx')
  · obtain ⟨q, hq⟩ := List.exists_mem_of_ne_nil _ hx'
    exact (h.glued x hx q hq).1 y hy (heq.symm.trans (functionOf_of_mem (hone x hx) hq))

/-- The function of a recipe that is kept apart is no alias. -/
theorem Apart.functionOf_ne_alias (h : Apart items) {x : List String × Recipe} {y : String × String}
    (hx : x ∈ recipesIn items) (hy : y ∈ aliasesIn items) (hfree : y.1 ≠ x.2.name) : functionOf x ≠ y.1 := by
  intro heq
  by_cases hx' : Platform.ofAttributes x.1 = []
  · exact hfree (heq.symm.trans (functionOf_of_nil hx'))
  · obtain ⟨q, hq⟩ := List.exists_mem_of_ne_nil _ hx'
    exact (h.glued x hx q hq).2 y hy (heq.symm.trans (functionOf_of_mem (hone x hx) hq))

/-- Functions that are kept apart are defined once. -/
theorem Apart.nodup (h : Apart items) (haliases : ((aliasesIn items).map (·.1)).Nodup)
    (hfree : ∀ x ∈ aliasesIn items, ∀ y ∈ recipesIn items, x.1 ≠ y.2.name)
    (hplain : (recipesIn items).Pairwise fun x y => Platform.ofAttributes y.1 = [] → x.2.name ≠ y.2.name) :
    (definedIn items).Nodup := by
  refine List.nodup_append.2 ⟨List.pairwise_map.2 ?_, List.nodup_append.2
    ⟨haliases, Program.nodup_keys_platformsOf, fun a ha b hb => ?_⟩, fun a ha b hb => ?_⟩
  · exact (hplain.and h.variants).imp_of_mem fun hx hy hxy => h.functionOf_ne hone hx hy hxy.1 hxy.2
  · obtain ⟨x, hx, rfl⟩ := List.mem_map.1 ha
    obtain ⟨y, hy, rfl, -⟩ := Program.exists_of_mem_keys_platformsOf hb
    exact hfree x hx y hy
  · obtain ⟨x, hx, rfl⟩ := List.mem_map.1 ha
    rcases List.mem_append.1 hb with hb | hb
    · obtain ⟨y, hy, rfl⟩ := List.mem_map.1 hb
      exact h.functionOf_ne_alias hone hx hy (hfree y hy x hx)
    · obtain ⟨y, hy, rfl, hplatforms⟩ := Program.exists_of_mem_keys_platformsOf hb
      exact h.functionOf_ne_name hone hx hy hplatforms

end Distinct

/-- **Shell names keep functions as far apart as they were.** -/
theorem Made.nodup_defined_iff {items : List Item} {p : Program} {s : Script} {u : Names} (h : Made items p s u) :
    s.defined.Nodup ↔ (definedIn items).Nodup := by
  have hnames : List.Forall₂ (fun n f => u.find? f = some ("FUN_" ++ n)) (definedIn items)
      (s.functions.map (·.name) ++ (s.aliases.map (·.name) ++ s.dispatchers.map (·.name))) := by
    refine List.rel_append ?_ (List.rel_append ?_ ?_)
    · exact List.forall₂_map_left_iff.2 (List.forall₂_map_right_iff.2 (h.functions.imp fun x f hf => hf.name))
    · exact List.forall₂_map_left_iff.2 (List.forall₂_map_right_iff.2 (h.aliases.imp fun x f hf => hf.1))
    · exact List.forall₂_map_left_iff.2 (List.forall₂_map_right_iff.2 (h.dispatchers.imp fun x d hd => hd.1))
  exact s.defined_perm.nodup_iff.trans (List.rel_nodup (h.settled.biUnique "FUN_") hnames).symm

/-- **No function is defined twice just if the justfile keeps its functions apart**, where recipes of one name
are not allowed, aliases have names of their own, and no recipe is for two platforms. -/
theorem functions_distinct_iff {edition : Edition} {outfile text script : String} {items : List Item}
    {settings : Settings} (hparse : parse text = .ok items)
    (hscript : (compile edition outfile text).script = .ok script)
    (hsettings : Settings.ofItems items = .ok settings)
    (hduplicates : settings.isGiven "allow-duplicate-recipes" = false)
    (haliases : ((aliasesIn items).map (·.1)).Nodup)
    (hfree : ∀ x ∈ aliasesIn items, ∀ y ∈ recipesIn items, x.1 ≠ y.2.name)
    (hone : ∀ x ∈ recipesIn items, (Platform.ofAttributes x.1).length ≤ 1) :
    ∃ p s, (Program.ofItems items).result .empty = .ok p ∧
      (Script.ofProgram edition outfile text p).result ((Program.ofItems items).table .empty) = .ok s ∧
      s.text = script ∧ (s.defined.Nodup ↔ Apart items) := by
  obtain ⟨p, s, hp, hs, htext, hmade⟩ := made_of_compile hparse hscript
  obtain ⟨settings', recipes, hsettings', -, hrecipes⟩ :=
    (Program.ofItems_eq_ok_iff (parse_named hparse)).1 ⟨p, hp⟩
  rw [hsettings] at hsettings'
  cases hsettings'
  rw [hduplicates] at hrecipes
  refine ⟨p, s, hp, hs, htext, hmade.nodup_defined_iff.trans ⟨apart_of_nodup hone, fun hapart => ?_⟩⟩
  exact hapart.nodup hone haliases hfree (Program.collectRecipes_distinct hrecipes).2

/-- An alias, and two recipes of one name: one for Linux, and one for some platform. -/
def variantsText (platform : String) : String :=
  "alias c := b\n[linux]\nb:\n  echo 1\n[" ++ platform ++ "]\nb:\n  echo 2\n"

def variantsItems (platform : String) : List Item :=
  let variant (platform text : String) : Item := ⟨[platform], .recipe {
    echo := true
    name := "b"
    parameters := []
    variadic := none
    before := []
    after := []
    body := [⟨none, [.text text]⟩] }⟩
  [⟨[], .alias "c" "b"⟩, variant "linux" "echo 1", variant platform "echo 2"]

/-- The function for Linux is defined twice if both recipes are for Linux, and once if one of them is for macOS. -/
theorem functions_distinct_iff_variants :
    (∃ script, ∃ s : Script, parse (variantsText "linux") = .ok (variantsItems "linux") ∧
        (compile ⟨"2000-01-02", "unknown"⟩ "just.sh" (variantsText "linux")).script = .ok script ∧
        s.text = script ∧ ¬ s.defined.Nodup) ∧
      ∃ script, ∃ s : Script, parse (variantsText "macos") = .ok (variantsItems "macos") ∧
        (compile ⟨"2000-01-02", "unknown"⟩ "just.sh" (variantsText "macos")).script = .ok script ∧
        s.text = script ∧ s.defined.Nodup := by
  constructor
  · have hparse : parse (variantsText "linux") = .ok (variantsItems "linux") := by decide +kernel
    obtain ⟨script, hscript⟩ := compile_succeeds isDate_sample hparse rfl (by decide +kernel) rfl
    obtain ⟨p, s, -, -, htext, hiff⟩ :=
      functions_distinct_iff hparse hscript rfl rfl (by decide) (by decide) (by decide)
    refine ⟨script, s, hparse, hscript, htext, fun hnodup => ?_⟩
    exact absurd (hiff.1 hnodup).variants (by decide)
  · have hparse : parse (variantsText "macos") = .ok (variantsItems "macos") := by decide +kernel
    obtain ⟨script, hscript⟩ := compile_succeeds isDate_sample hparse rfl (by decide +kernel) rfl
    obtain ⟨p, s, -, -, htext, hiff⟩ :=
      functions_distinct_iff hparse hscript rfl rfl (by decide) (by decide) (by decide)
    exact ⟨script, s, hparse, hscript, htext, hiff.2 ⟨by decide, by decide, by decide⟩⟩

end Justfile
