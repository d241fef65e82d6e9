import Justfile.Proofs.Definitions
import Justfile.Proofs.Delegation

/-!
# From a call to the function of a recipe

A target is called by its name, and so is a dependency. The function of this name is that of the recipe, that of an
alias, or a dispatcher, and the last two call on. Where no function is defined twice there is one way to go, and it
ends at the function of the recipe.

* `Script.NamesApart`: functions are told apart by their names. `Script.namesApart`: this holds if none is defined
  twice.
* `Chain.of_function`, `Chain.of_alias`, `Chain.of_dispatcher`: where a chain goes from a function of each kind.
* `Reaches`: calls of a name come to a function, with or without their arguments. `Made.reaches_recipe`,
  `Made.reaches_target`: calls of recipes and targets do.
-/

namespace Justfile

open Shell Shell.Names

namespace Script

/-- Functions are told apart by their names. -/
structure NamesApart (s : Script) : Prop where
  functions : ∀ f ∈ s.functions, ∀ g ∈ s.functions, f.name = g.name → f = g
  aliases : ∀ a ∈ s.aliases, ∀ b ∈ s.aliases, a.name = b.name → a = b
  dispatchers : ∀ d ∈ s.dispatchers, ∀ e ∈ s.dispatchers, d.name = e.name → d = e
  functionAlias : ∀ f ∈ s.functions, ∀ a ∈ s.aliases, f.name ≠ a.name
  functionDispatcher : ∀ f ∈ s.functions, ∀ d ∈ s.dispatchers, f.name ≠ d.name
  aliasDispatcher : ∀ a ∈ s.aliases, ∀ d ∈ s.dispatchers, a.name ≠ d.name

/-- **Functions that are defined once are told apart by their names.** -/
theorem namesApart {s : Script} (h : s.defined.Nodup) : s.NamesApart := by
  rw [s.defined_perm.nodup_iff, List.nodup_append, List.nodup_append] at h
  obtain ⟨hfunctions, ⟨haliases, hdispatchers, hothers⟩, hapart⟩ := h
  refine ⟨?_, ?_, ?_, fun f hf a ha => ?_, fun f hf d hd => ?_, fun a ha d hd => ?_⟩
  · exact fun f hf g hg => List.inj_on_of_nodup_map hfunctions hf hg
  · exact fun a ha b hb => List.inj_on_of_nodup_map haliases ha hb
  · exact fun d hd e he => List.inj_on_of_nodup_map hdispatchers hd he
  · exact hapart _ (List.mem_map_of_mem hf) _ (List.mem_append_left _ (List.mem_map_of_mem ha))
  · exact hapart _ (List.mem_map_of_mem hf) _ (List.mem_append_right _ (List.mem_map_of_mem hd))
  · exact hothers _ (List.mem_map_of_mem ha) _ (List.mem_map_of_mem hd)

namespace Chain

variable {w : World} {s : Script} {n : Nat} {args : List String} {last : String × List String}

/-- A chain ends at the function of a recipe. -/
theorem of_function (hapart : s.NamesApart) {f : RecipeFunction} (hf : f ∈ s.functions)
    (h : Chain w s n (f.name, args) last) : last = (f.name, args) := by
  generalize hcall : (f.name, args) = call at h
  cases h with
  | here => rfl
  | ofAlias ha => exact absurd (Prod.ext_iff.1 hcall).1 (hapart.functionAlias f hf _ ha)
  | ofDispatcher hd => exact absurd (Prod.ext_iff.1 hcall).1 (hapart.functionDispatcher f hf _ hd)

/-- A chain goes from an alias to its target, if it goes on. -/
theorem of_alias (hapart : s.NamesApart) {a : AliasFunction} (ha : a ∈ s.aliases)
    (h : Chain w s n (a.name, args) last) : last = (a.name, args) ∨ Chain w s n (a.target, args) last := by
  generalize hcall : (a.name, args) = call at h
  cases h with
  | here => exact .inl rfl
  | ofAlias ha' hnext more =>
    obtain ⟨hname, rfl⟩ := Prod.mk.inj hcall
    obtain rfl := hapart.aliases a ha _ ha' hname
    rw [AliasFunction.run_eq, List.mem_singleton] at hnext
    rw [hnext] at more
    exact .inr more
  | ofDispatcher hd => exact absurd (Prod.ext_iff.1 hcall).1 (hapart.aliasDispatcher a ha _ hd)

/-- A chain goes from a dispatcher to a function of one of its branches, if it goes on. -/
theorem of_dispatcher (hapart : s.NamesApart) {d : Dispatcher} (hd : d ∈ s.dispatchers)
    (h : Chain w s n (d.name, args) last) :
    last = (d.name, args) ∨ ∃ b ∈ d.branches, ∃ m, Chain w s m (b.function, []) last := by
  generalize hcall : (d.name, args) = call at h
  cases h with
  | here => exact .inl rfl
  | ofAlias ha => exact absurd (Prod.ext_iff.1 hcall).1.symm (hapart.aliasDispatcher _ ha d hd)
  | ofDispatcher hd' hnext more =>
    obtain ⟨hname, rfl⟩ := Prod.mk.inj hcall
    obtain rfl := hapart.dispatchers d hd _ hd' hname
    rw [Dispatcher.run_eq, Option.mem_toList, Option.map_eq_some_iff] at hnext
    obtain ⟨b, hb, rfl⟩ := hnext
    exact .inr ⟨b, List.mem_of_find?_eq_some hb, _, more⟩

end Chain

/-- **Calls of a name come to the function of a recipe.** Without platforms they bring their arguments. With platforms
they come there on some platform, through a dispatcher and without arguments. If no function is defined twice, they come
to no function of another recipe. -/
structure Reaches (s : Script) (platforms : List Platform) (f : RecipeFunction) (name : String) : Prop where
  plain : platforms = [] → ∀ w args, Chain w s 0 (name, args) (f.name, args)
  chosen : platforms ≠ [] → ∃ w, ∀ args, Chain w s 1 (name, args) (f.name, [])
  only : s.defined.Nodup → ∀ w n args, ∀ g ∈ s.functions, ∀ arrived, Chain w s n (name, args) (g.name, arrived) →
    g = f ∧ arrived = if platforms = [] then args else []

/-- Calls of an alias come to where those of its target come. -/
theorem Reaches.ofAlias {s : Script} {platforms : List Platform} {f : RecipeFunction} {a : AliasFunction}
    (ha : a ∈ s.aliases) (h : Reaches s platforms f a.target) : Reaches s platforms f a.name := by
  have hnext (w : World) (args : List String) : (a.target, args) ∈ (runBlock w (.start args) a.statements).1.calls := by
    rw [a.run_eq]
    exact List.mem_singleton_self _
  refine ⟨fun hplain w args => .ofAlias ha (hnext w args) (h.plain hplain w args), fun hplatforms => ?_, ?_⟩
  · obtain ⟨w, hw⟩ := h.chosen hplatforms
    exact ⟨w, fun args => .ofAlias ha (hnext w args) (hw args)⟩
  · intro hnodup w n args g hg arrived hchain
    have hapart := namesApart hnodup
    rcases hchain.of_alias hapart ha with hhere | hchain
    · exact absurd (Prod.ext_iff.1 hhere).1 (hapart.functionAlias g hg a ha)
    · exact h.only hnodup w n args g hg arrived hchain

end Script

namespace Made

variable {items : List Item} {p : Program} {s : Script} {u : Names} (h : Made items p s u)
  (hdistinct : ((recipesIn items).map (·.2.name)).Nodup)

include h hdistinct

/-- **Calls of a recipe come to its function.** -/
theorem reaches_recipe {attributes : List String} {r : Recipe} {f : Script.RecipeFunction}
    (hx : ((attributes, r), f) ∈ (recipesIn items).zip s.functions) {name : String}
    (hname : u.find? name = some ("FUN_" ++ r.name)) : s.Reaches (Platform.ofAttributes attributes) f name := by
  obtain ⟨hr, hf⟩ := List.of_mem_zip hx
  have hof : f.Of u p attributes r := List.forall₂_zip h.functions hx
  by_cases hplatforms : Platform.ofAttributes attributes = []
  · -- the name is that of the function itself
    have hown := hof.name
    simp only [hplatforms] at hown
    obtain rfl : name = f.name := (h.settled.eq_iff hname hown).2 rfl
    refine ⟨fun _ w args => .here _, fun hne => absurd hplatforms hne, ?_⟩
    intro hnodup w n args g hg arrived hchain
    have hlast := hchain.of_function (Script.namesApart hnodup) hf
    rw [if_pos hplatforms]
    exact ⟨(Script.namesApart hnodup).functions g hg f hf (Prod.ext_iff.1 hlast).1, (Prod.ext_iff.1 hlast).2⟩
  · -- the name is that of a dispatcher, and all its branches call the function
    obtain ⟨x, hentry, hkey⟩ := List.mem_map.1 (Program.mem_keys_platformsOf hr hplatforms)
    obtain ⟨d, hd, hdname, hbranches⟩ := exists_right_of_mem h.dispatchers x hentry
    rw [hkey] at hdname
    obtain rfl : name = d.name := (h.settled.eq_iff hname hdname).2 rfl
    have hcalls : ∀ b ∈ d.branches, b.function = f.name := by
      intro b hb
      obtain ⟨attributes', r', platform, -, -, hr', -, -, hname', hbranch, -⟩ := h.branch hd hb
      have hsame : r'.name = r.name := (h.settled.biUnique "FUN_").1 hname' hname
      obtain ⟨rfl, rfl⟩ := Prod.ext_iff.1 (List.inj_on_of_nodup_map hdistinct hr' hr hsame)
      exact (h.settled.eq_iff hbranch.function hof.name).2 rfl
    obtain ⟨hsome, hkeys⟩ := Program.choices_platformsOf items x hentry
    have hwithholds : d.Withholds :=
      Script.Dispatcher.withholds hbranches hsome (Program.mem_platformsOf x hentry) hkeys
    refine ⟨fun hplain => absurd hplain hplatforms, fun _ => ?_, ?_⟩
    · obtain ⟨b, hb⟩ := List.exists_mem_of_ne_nil _ hwithholds.nonempty
      obtain ⟨w, hw⟩ := hwithholds.reached b hb
      refine ⟨w, fun args => .ofDispatcher hd ?_ (.here _)⟩
      rw [hwithholds.run, hw, ← hcalls b hb]
      exact List.mem_singleton_self _
    · intro hnodup w n args g hg arrived hchain
      have hapart := Script.namesApart hnodup
      rw [if_neg hplatforms]
      rcases hchain.of_dispatcher hapart hd with hhere | ⟨b, hb, m, hchain⟩
      · exact absurd (Prod.ext_iff.1 hhere).1 (hapart.functionDispatcher g hg d hd)
      · rw [hcalls b hb] at hchain
        have hlast := hchain.of_function hapart hf
        exact ⟨hapart.functions g hg f hf (Prod.ext_iff.1 hlast).1, (Prod.ext_iff.1 hlast).2⟩

/-- **Calls of a target come to the function of the recipe that it names or is an alias of.** -/
theorem reaches_target {attributes : List String} {r : Recipe} {f : Script.RecipeFunction}
    (hx : ((attributes, r), f) ∈ (recipesIn items).zip s.functions) {target name : String}
    (htarget : target = r.name ∨ (target, r.name) ∈ aliasesIn items) (hname : u.find? name = some ("FUN_" ++ target)) :
    s.Reaches (Platform.ofAttributes attributes) f name := by
  rcases htarget with rfl | halias
  · exact h.reaches_recipe hdistinct hx hname
  · obtain ⟨a, ha, haname, hatarget⟩ := exists_right_of_mem h.aliases _ halias
    rw [(h.settled.eq_iff hname haname).2 rfl]
    exact .ofAlias ha (h.reaches_recipe hdistinct hx hatarget)

end Made

end Justfile
