import Justfile.Proofs.Layout
import Justfile.Proofs.Reaching

/-!
# Splitting the command line

The words of a command line are targets, each followed by its arguments. The case of a target does not know
the recipe; it drops as many words as the table of parameters says. The function of the recipe takes the words at its
own places, of those that come to it. These have to be the same, and they are, but for recipes for platforms: what
their cases drop comes no further than to a dispatcher.

* `Distinct`: names do not clash. `IsTarget`: the recipe that a target names or is an alias of.
* `TargetCase.Drops`: a case drops the arguments of a recipe. `RecipeFunction.Binds`: a function takes them.
* `Loops`: the loop over the command line. `loops_groups`: targets with all their arguments are run one after the
  other, by induction over them.
* `Splits`: how a script splits a command line, and when a function takes what the case of its target drops.
  `arguments_split`: this for the script of every justfile whose names do not clash.
-/

namespace Justfile

open Shell Shell.Names

/-- Recipes have different names, aliases have different names, and no alias has the name of a recipe. -/
structure Distinct (items : List Item) : Prop where
  recipes : ((recipesIn items).map (·.2.name)).Nodup
  aliases : ((aliasesIn items).map (·.1)).Nodup
  apart : ∀ n ∈ (recipesIn items).map (·.2.name), n ∉ (aliasesIn items).map (·.1)

/-- The target is the recipe's name or an alias of it. -/
def IsTarget (items : List Item) (target : String) (r : Recipe) : Prop :=
  ∃ attributes, (attributes, r) ∈ recipesIn items ∧ (target = r.name ∨ (target, r.name) ∈ aliasesIn items)

variable {items : List Item} {r : Recipe} {target : String}

theorem Distinct.meant (h : Distinct items) (ht : IsTarget items target r) : meantIn items target = some r := by
  obtain ⟨attributes, hr, hname⟩ := ht
  have hapart := h.apart r.name (List.mem_map.2 ⟨_, hr, rfl⟩)
  rcases hname with rfl | hname
  · exact meant_of_recipe hr h.recipes hapart
  · exact meant_of_alias hr hname h.recipes h.aliases hapart

/-- Every target is one of some recipe. -/
theorem Program.From.isTarget {p : Program} (h : p.From items) (ht : target ∈ p.targets) :
    ∃ r, IsTarget items target r := by
  have hname : ∀ n ∈ p.recipes, ∃ x ∈ recipesIn items, x.2.name = n := by
    intro n hn
    rw [h.recipes] at hn
    exact List.mem_map.1 hn
  rcases h.targets target ht with ht | ⟨n, hn, ht⟩
  · obtain ⟨x, hx, rfl⟩ := hname target ht
    exact ⟨x.2, x.1, hx, .inl rfl⟩
  · obtain ⟨x, hx, rfl⟩ := hname n hn
    exact ⟨x.2, x.1, hx, .inr ht⟩

namespace Targets

/-- Every target is found once. -/
structure Once (t : Targets) : Prop where
  seen : ∀ n ∈ t.all, n ∈ t.seen
  nodup : t.all.Nodup

theorem once_add {t : Targets} (h : t.Once) {name : String} (hname : name ∉ t.seen) (recipes : List String) :
    Once ⟨name :: t.seen, recipes, t.all ++ [name]⟩ := by
  refine ⟨fun n hn => ?_, ?_⟩
  · rcases List.mem_append.1 hn with hn | hn
    · exact List.mem_cons_of_mem _ (h.seen n hn)
    · rw [List.mem_singleton.1 hn]
      exact List.mem_cons_self
  · rw [← List.concat_eq_append]
    exact h.nodup.concat fun hn => hname (h.seen name hn)

theorem once_inOrder (aliases : Table (List String)) (isPrivate : String → Bool) (recipes : List String) :
    (inOrder aliases isPrivate recipes).Once := by
  -- two folds, one in the other: over the recipes, and over the aliases of each
  refine List.foldlRecOn (motive := Once) recipes _ ⟨fun n hn => absurd hn List.not_mem_nil, .nil⟩
    fun t ht name _ => ?_
  unfold addRecipe
  split
  · exact ht
  · rename_i hname
    have hnew : name ∉ t.seen := fun hmem => hname (List.elem_eq_true_of_mem hmem)
    refine List.foldlRecOn (motive := Once) _ _ (once_add ht hnew _) fun t ht a _ => ?_
    unfold addAlias
    split
    · exact ht
    · rename_i hskip
      rw [Bool.or_false] at hskip
      exact once_add ht (fun hmem => hskip (List.elem_eq_true_of_mem hmem)) _

end Targets

theorem Program.nodup_targets {t : Names} {p : Program} (h : (Program.ofItems items).result t = .ok p) :
    p.targets.Nodup := by
  rw [(Program.assembled_of_ofItems h).targets]
  exact (Targets.once_inOrder _ _ _).nodup

namespace Script

/-- **The case of a target drops the arguments of the recipe**: it ends the loop if the recipe takes all
remaining ones, and else drops one for each parameter, as far as there are any. -/
structure TargetCase.Drops (r : Recipe) (c : TargetCase) : Prop where
  text : c.text = c.target ++ ")\n" ++ lines (c.statements.map (Statement.text "    ") ++ ["    ;;"])
  variadic : r.variadic.isSome = true → ∀ (w : World) (frame : Frame) (args : List String),
    frame.args = c.target :: args → runBlock w frame c.statements =
      (⟨args, frame.assigned, frame.calls ++ [(c.function, args)]⟩, .left)
  plain : r.variadic = none → ∀ (w : World) (frame : Frame) (args : List String),
    frame.args = c.target :: args → runBlock w frame c.statements =
      (⟨args.drop (min args.length r.parameters.length), frame.assigned, frame.calls ++ [(c.function, args)]⟩,
        .next)

theorem consumptionOf_variadic (h : r.variadic.isSome = true) : consumptionOf r.params = .all := by
  obtain ⟨v, hv⟩ := Option.isSome_iff_exists.1 h
  simp [consumptionOf, Recipe.params, hv, Param.isVariadic]

theorem left_consumptionOf (h : r.variadic = none) (args : List String) :
    (consumptionOf r.params).left args = (args.drop (min args.length r.parameters.length), .next) := by
  have hparams : r.params = r.parameters.map .plain := by simp [Recipe.params, h]
  have hany : (r.parameters.map Param.plain).any (·.isVariadic) = false := by
    simp [List.any_eq_false, Param.isVariadic]
  have hdrop : args.drop (min args.length r.parameters.length) = args.drop r.parameters.length := by
    rcases Nat.le_total args.length r.parameters.length with hle | hle
    · rw [Nat.min_eq_left hle, List.drop_length, List.drop_eq_nil_of_le hle]
    · rw [Nat.min_eq_right hle]
  rw [hparams, hdrop]
  unfold consumptionOf
  rw [hany]
  cases hnil : r.parameters with
  | nil => simp [Consumption.left]
  | cons q qs => simp [Consumption.left]

theorem TargetCase.drops_of_consumption {c : TargetCase} (h : c.consumption = consumptionOf r.params) : c.Drops r := by
  refine ⟨c.text_eq, fun hv w frame args hargs => ?_, fun hv w frame args hargs => ?_⟩
  · rw [c.run_eq w frame hargs, h, consumptionOf_variadic hv]
    rfl
  · rw [c.run_eq w frame hargs, h, left_consumptionOf hv]

/-- The slots of a function. -/
def RecipeFunction.slots (f : RecipeFunction) : List Slot :=
  f.intake.elim [] (·.slots)

/-- The arguments that a function takes at the places of its slots. -/
def RecipeFunction.taken (f : RecipeFunction) (args : List String) : List String :=
  f.slots.filterMap fun slot => args[slot.place - 1]?

/-- **The function of a recipe takes the arguments of the recipe**: those at the first places, one for each
parameter, and no others unless it takes all remaining ones. It does so before all else. -/
structure RecipeFunction.Binds (r : Recipe) (f : RecipeFunction) : Prop where
  place : ∀ i ∈ f.intake, ∃ rest, f.text = define f.name (f.setupText ++ "\n\n" ++ i.text ++ "\n\n" ++ rest)
  text : ∀ i ∈ f.intake, i.text = blockText "  " i.statements
  run : ∀ i ∈ f.intake, ∀ (w : World) (args : List String), leastCount r ≤ args.length →
    runBlock w (.start args) i.statements = (⟨i.rest w args, i.assigned w args, []⟩, .next)
  places : f.slots.map (·.place) = List.range' 1 r.parameters.length
  bound : ∀ args : List String, f.taken args = args.take (min args.length r.parameters.length)
  own : r.variadic = none → ∀ i ∈ f.intake, ∀ (w : World) (args : List String),
    i.assigned w args = i.assigned w (args.take r.parameters.length)

theorem filterMap_places (args : List String) (n : Nat) :
    (List.range' 1 n).filterMap (fun k => args[k - 1]?) = args.take (min args.length n) := by
  have htake : args.take (min args.length n) = args.take n := by
    rcases Nat.le_total args.length n with hle | hle
    · rw [Nat.min_eq_left hle, List.take_length, List.take_of_length_le hle]
    · rw [Nat.min_eq_right hle]
  rw [htake]
  clear htake
  induction n with
  | zero => rfl
  | succ n ih =>
    have hlast : [1 + n].filterMap (fun k => args[k - 1]?) = args[n]?.toList := by
      rw [List.filterMap_cons, Nat.add_sub_cancel_left]
      cases args[n]? <;> rfl
    rw [List.range'_1_concat, List.filterMap_append, ih, List.take_add_one, hlast]

/-- Within the first arguments, a parameter does not depend on those after them. -/
theorem Slot.assigned_take (w : World) {s : Slot} {n : Nat} (hpos : 1 ≤ s.place) (hle : s.place ≤ n)
    (args : List String) : s.assigned w args = s.assigned w (args.take n) := by
  have hvalue : (args.take n).getD (s.place - 1) "" = args.getD (s.place - 1) "" := by
    rw [List.getD_eq_getElem?_getD, List.getD_eq_getElem?_getD, List.getElem?_take_of_lt (by omega)]
  have hmissing : (args.take n).length < s.place ↔ args.length < s.place := by
    rw [List.length_take]
    omega
  unfold Slot.assigned
  simp only [hvalue, hmissing]

theorem RecipeFunction.binds_of_intake {f : RecipeFunction} (h : Intake.Of r f.intake) : f.Binds r := by
  have hplaces : f.slots.map (·.place) = List.range' 1 r.parameters.length := by
    unfold RecipeFunction.slots
    cases hi : f.intake with
    | none =>
      rw [hi] at h
      obtain ⟨hparameters, -⟩ := List.append_eq_nil_iff.1 h
      have hnil : r.parameters = [] := by simpa using hparameters
      rw [hnil]
      rfl
    | some i =>
      rw [hi] at h
      exact h.2.2.1
  have hrequired := h.required
  refine ⟨fun i hi => f.text_intake hi, fun i hi => ?_, fun i hi w args hle => ?_, hplaces, fun args => ?_,
    fun hv i hi w args => ?_⟩
  · rw [Option.mem_def.1 hi] at h
    exact h.text_eq
  · rw [Option.mem_def.1 hi, Option.elim_some] at hrequired
    rw [i.run_eq w args, if_neg (by omega)]
  · have hmap : f.taken args = (f.slots.map (·.place)).filterMap fun k => args[k - 1]? := by
      rw [List.filterMap_map]
      rfl
    rw [hmap, hplaces, filterMap_places]
  · have hslots : f.slots = i.slots := by rw [RecipeFunction.slots, Option.mem_def.1 hi]; rfl
    rw [Option.mem_def.1 hi] at h
    have hrest : i.remainder = none := by simpa [hv] using h.2.2.2
    unfold Intake.assigned
    rw [hrest]
    refine congrArg (· ++ _) (List.flatMap_congr fun s hs => ?_)
    have hmem : s.place ∈ List.range' 1 r.parameters.length := by
      rw [← hplaces, hslots]
      exact List.mem_map_of_mem hs
    rw [List.mem_range'_1] at hmem
    exact s.assigned_take w hmem.1 (by omega) args

section Loop

variable {w : World} {cases : List TargetCase}

/-- The loop over the command line, where it meets targets: the case of the first word is run, until no word is
left or a case ends the loop. -/
inductive Loops (w : World) (cases : List TargetCase) : Frame → Frame → Prop where
  | done {frame : Frame} (h : frame.args = []) : Loops w cases frame frame
  | next {frame frame' last : Frame} {word : String} {args : List String} {c : TargetCase}
      (h : frame.args = word :: args) (hc : cases.find? (fun c => c.target == word) = some c)
      (hrun : runBlock w frame c.statements = (frame', .next)) (more : Loops w cases frame' last) :
      Loops w cases frame last
  | left {frame last : Frame} {word : String} {args : List String} {c : TargetCase}
      (h : frame.args = word :: args) (hc : cases.find? (fun c => c.target == word) = some c)
      (hrun : runBlock w frame c.statements = (last, .left)) : Loops w cases frame last

/-- The words of targets with their arguments. -/
def words (groups : List (TargetCase × List String)) : List String :=
  groups.flatMap fun g => g.1.target :: g.2

/-- The calls for targets with their arguments, before other words: each function gets all words after its
target. -/
def callsOf (rest : List String) : List (TargetCase × List String) → List (String × List String)
  | [] => []
  | g :: groups => (g.1.function, g.2 ++ (words groups ++ rest)) :: callsOf rest groups

/-- **Targets with all their arguments are run one after the other**, and the loop goes on with the words after
them. -/
theorem loops_groups {rest : List String} {last : Frame} {groups : List (TargetCase × List String)}
    (h : ∀ g ∈ groups, cases.find? (fun c => c.target == g.1.target) = some g.1 ∧
      ∀ args, g.1.consumption.left (g.2 ++ args) = (args, .next)) {frame : Frame}
    (hargs : frame.args = words groups ++ rest)
    (hrest : Loops w cases ⟨rest, frame.assigned, frame.calls ++ callsOf rest groups⟩ last) :
    Loops w cases frame last := by
  -- each group leaves its call in the frame, and the words after it as the arguments
  induction groups generalizing frame with
  | nil =>
    obtain ⟨args, assigned, calls⟩ := frame
    rw [callsOf, List.append_nil] at hrest
    cases hargs
    exact hrest
  | cons g groups ih =>
    obtain ⟨hfind, hleft⟩ := h g List.mem_cons_self
    have hwords : frame.args = g.1.target :: (g.2 ++ (words groups ++ rest)) := by
      rw [hargs, words, List.flatMap_cons, List.cons_append, List.cons_append, List.append_assoc]
      rfl
    have hrun := g.1.run_eq w frame hwords
    rw [hleft] at hrun
    refine .next hwords hfind hrun (ih (fun g' hg' => h g' (List.mem_cons_of_mem g hg')) rfl ?_)
    rw [callsOf] at hrest
    rwa [List.append_assoc]

end Loop

/-- **What a function takes of what comes to it**, after the case of its target has dropped its arguments: just these,
unless they stayed with a dispatcher. -/
theorem RecipeFunction.Binds.taken_eq_iff {f : RecipeFunction} (h : f.Binds r) {platforms : List Platform}
    {args arrived : List String} (harrived : arrived = if platforms = [] then args else []) :
    f.taken arrived = args.take (min args.length r.parameters.length) ↔
      platforms = [] ∨ args = [] ∨ r.parameters = [] := by
  rw [harrived, h.bound]
  by_cases hplatforms : platforms = []
  · rw [if_pos hplatforms]
    exact iff_of_true rfl (.inl hplatforms)
  · rw [if_neg hplatforms, List.take_nil, eq_comm, List.take_eq_nil_iff, or_iff_right hplatforms]
    rw [Nat.min_eq_zero_iff, List.length_eq_zero_iff, List.length_eq_zero_iff]
    tauto

/-- **How command lines are split.** Every target belongs to one recipe. Its case drops one argument for each parameter
of the recipe, and the function of the recipe takes as many. Calls of the target come to this function, and what it
takes is what the case drops just if the recipe is not for platforms, or nothing is dropped. Targets with all their
arguments are run one after the other. -/
structure Splits (items : List Item) (p : Program) (u : Names) (s : Script) : Prop where
  targets : ∀ target ∈ p.targets, ∃! r, IsTarget items target r
  cases : List.Forall₂ (fun target c => c.target = target ∧ u.find? c.function = some ("FUN_" ++ target) ∧
    ∀ r, IsTarget items target r → c.Drops r) p.targets s.cases
  functions : List.Forall₂ (fun x f => f.Of u p x.1 x.2 ∧ f.Binds x.2) (recipesIn items) s.functions
  aliases : ∀ a ∈ s.aliases, a.Forwards
  dispatchers : ∀ d ∈ s.dispatchers, d.Withholds
  reached : ∀ c ∈ s.cases, ∀ x ∈ (recipesIn items).zip s.functions,
    c.target = x.1.2.name ∨ (c.target, x.1.2.name) ∈ aliasesIn items →
    s.Reaches (Platform.ofAttributes x.1.1) x.2 c.function
  taken : s.defined.Nodup → ∀ c ∈ s.cases, ∀ x ∈ (recipesIn items).zip s.functions,
    c.target = x.1.2.name ∨ (c.target, x.1.2.name) ∈ aliasesIn items →
    ∀ w n args arrived, Chain w s n (c.function, args) (x.2.name, arrived) →
      (x.2.taken arrived = args.take (min args.length x.1.2.parameters.length) ↔
        Platform.ofAttributes x.1.1 = [] ∨ args = [] ∨ x.1.2.parameters = [])
  loop : ∀ (w : World) (rest : List String) (last : Frame) (groups : List (TargetCase × List String)),
    (∀ g ∈ groups, g.1 ∈ s.cases ∧ ∃ r, IsTarget items g.1.target r ∧ r.variadic = none ∧
      g.2.length = r.parameters.length) →
    Loops w s.cases ⟨rest, [], callsOf rest groups⟩ last →
    Loops w s.cases (.start (words groups ++ rest)) last

end Script

section Assembly

variable {p : Program} {s : Script} {t u : Names}

/-- The case of a target goes by the parameters of its recipe. -/
theorem consumption_of_target (hp : (Program.ofItems items).result t = .ok p) (hdistinct : Distinct items)
    (ht : IsTarget items target r) {c : Script.TargetCase}
    (hc : c.consumption = Script.consumptionOf ((p.parameters.find? target).getD [])) :
    c.consumption = Script.consumptionOf r.params := by
  rw [hc, find?_parameters hp, hdistinct.meant ht]
  rfl

theorem Made.splits (h : Made items p s u) (hp : (Program.ofItems items).result t = .ok p)
    (hparams : s.Parameters p) (hdistinct : Distinct items) : s.Splits items p u := by
  have hcases := h.cases_consumptions hparams
  have htargets : s.cases.map (·.target) = p.targets := by
    have hrel := hcases.imp fun _ _ hc => hc.1.symm
    rw [← List.forall₂_map_right_iff, List.forall₂_eq_eq_eq] at hrel
    exact hrel.symm
  have hdelegates := h.delegates hparams
  have hbinds := (h.functions_intakes hparams).imp fun x f hf =>
    And.intro hf.1 (Script.RecipeFunction.binds_of_intake hf.2)
  have hreached : ∀ c ∈ s.cases, ∀ x ∈ (recipesIn items).zip s.functions,
      c.target = x.1.2.name ∨ (c.target, x.1.2.name) ∈ aliasesIn items →
      s.Reaches (Platform.ofAttributes x.1.1) x.2 c.function := by
    intro c hc x hx htarget
    obtain ⟨target, -, hname, hfunction, -⟩ := exists_left_of_mem hcases c hc
    rw [hname] at htarget
    exact h.reaches_target hdistinct.recipes hx htarget hfunction
  refine ⟨fun target ht => ?_, ?_, hbinds, fun a ha => ?_, hdelegates.dispatchers, hreached, ?_,
    fun w rest last groups hgroups hrest => ?_⟩
  · obtain ⟨r, hr⟩ := h.program.isTarget ht
    refine ⟨r, hr, fun r' hr' => ?_⟩
    exact Option.some.inj ((hdistinct.meant hr').symm.trans (hdistinct.meant hr))
  · refine hcases.imp fun target c hc => ⟨hc.1, hc.2.1, fun r hr => ?_⟩
    exact Script.TargetCase.drops_of_consumption (consumption_of_target hp hdistinct hr hc.2.2)
  · obtain ⟨x, -, -, -, hforwards⟩ := exists_left_of_mem hdelegates.aliases a ha
    exact hforwards
  · intro hnodup c hc x hx htarget w n args arrived hchain
    have hfunction := (List.of_mem_zip hx).2
    obtain ⟨-, harrived⟩ := (hreached c hc x hx htarget).only hnodup w n args x.2 hfunction arrived hchain
    exact (List.forall₂_zip hbinds hx).2.taken_eq_iff harrived
  · refine Script.loops_groups (fun g hg => ?_) rfl hrest
    obtain ⟨hc, r, hr, hvariadic, hlength⟩ := hgroups g hg
    refine ⟨?_, fun args => ?_⟩
    · refine find?_of_nodup ?_ hc
      rw [htargets]
      exact Program.nodup_targets hp
    · obtain ⟨target, -, hname, -, hconsumption⟩ := exists_left_of_mem hcases g.1 hc
      rw [hname] at hr
      have hall : min (g.2 ++ args).length g.2.length = g.2.length := by
        rw [List.length_append]
        omega
      rw [consumption_of_target hp hdistinct hr hconsumption, Script.left_consumptionOf hvariadic, ← hlength, hall,
        List.drop_left]

end Assembly

/-- **How the words of a command line are split between recipes**, in the script of every justfile whose names do not
clash. The cases of targets are in the loop over the command line, and the functions in the section of recipes. -/
theorem arguments_split {edition : Edition} {outfile text script : String} {items : List Item}
    (hparse : parse text = .ok items) (hscript : (compile edition outfile text).script = .ok script)
    (hdistinct : Distinct items) :
    ∃ p s, (Program.ofItems items).result .empty = .ok p ∧
      (Script.ofProgram edition outfile text p).result ((Program.ofItems items).table .empty) = .ok s ∧
      s.text = script ∧ s.Layout script ∧ s.Splits items p (namesAfter edition outfile text items p) := by
  obtain ⟨p, s, hp, hs, rfl, hmade⟩ := made_of_compile hparse hscript
  have hparams := Script.parameters_of_ofProgram (Program.settled_ofItems hp) hs
  exact ⟨p, s, hp, hs, rfl, s.layout, hmade.splits hp hparams hdistinct⟩

/-- A recipe with two parameters and an alias of it, a recipe that takes all remaining arguments, and a recipe for one
platform. -/
def splitText : String :=
  "build a b=\"1\":\n  echo\nalias t := build\nall *rest:\n  echo\n[linux]\ntest x=\"d\":\n  echo\n"

def splitBuild : Recipe where
  echo := true
  name := "build"
  parameters := [⟨false, "a", none⟩, ⟨false, "b", some (.text "1")⟩]
  variadic := none
  before := []
  after := []
  body := [⟨none, [.text "echo"]⟩]

def splitAll : Recipe where
  echo := true
  name := "all"
  parameters := []
  variadic := some ⟨.star, ⟨false, "rest", none⟩⟩
  before := []
  after := []
  body := [⟨none, [.text "echo"]⟩]

def splitTest : Recipe where
  echo := true
  name := "test"
  parameters := [⟨false, "x", some (.text "d")⟩]
  variadic := none
  before := []
  after := []
  body := [⟨none, [.text "echo"]⟩]

def splitItems : List Item :=
  [⟨[], .recipe splitBuild⟩, ⟨[], .alias "t" "build"⟩, ⟨[], .recipe splitAll⟩, ⟨["linux"], .recipe splitTest⟩]

/-- The words `t 1 2 all 3 4` are two calls: the first function takes two of its five arguments, and the second
takes all. Of the words `test 5` the case drops both, and the function takes neither. -/
theorem arguments_split_alias :
    parse splitText = .ok splitItems ∧ Distinct splitItems ∧
      ∃ script p, ∃ s : Script,
        (compile ⟨"2000-01-02", "unknown"⟩ "just.sh" splitText).script = .ok script ∧ s.text = script ∧
        s.Layout script ∧
        s.Splits splitItems p (namesAfter ⟨"2000-01-02", "unknown"⟩ "just.sh" splitText splitItems p) ∧
        ∃ build t all test : Script.TargetCase, s.cases = [build, t, all, test] ∧ build.target = "build" ∧
          t.target = "t" ∧ all.target = "all" ∧ test.target = "test" ∧
          (∀ w, Script.Loops w s.cases (.start ["t", "1", "2", "all", "3", "4"])
            ⟨["3", "4"], [], [(t.function, ["1", "2", "all", "3", "4"]), (all.function, ["3", "4"])]⟩) ∧
          ∃ w, ∃ f ∈ s.functions, Script.Chain w s 1 (test.function, ["5"]) (f.name, []) ∧ f.taken [] = [] ∧
            runBlock w (.start ["test", "5"]) test.statements = (⟨[], [], [(test.function, ["5"])]⟩, .next) := by
  have hparse : parse splitText = .ok splitItems := by decide +kernel
  have htargets : ((Program.ofItems splitItems).result .empty).toOption.map Program.targets =
      some ["build", "t", "all", "test"] := by
    decide +kernel
  have hdistinct : Distinct splitItems := ⟨by decide, by decide, by decide⟩
  obtain ⟨script, hscript⟩ := compile_succeeds isDate_sample hparse rfl (by decide +kernel) rfl
  obtain ⟨p, s, hp, -, htext, hlayout, hsplits⟩ := arguments_split hparse hscript hdistinct
  rw [hp, Except.toOption, Option.map_some, Option.some.injEq] at htargets
  obtain ⟨build, t, all, test, hlist, hbuild, ht, hall, htest⟩ : ∃ build t all test, s.cases = [build, t, all, test] ∧
      build.target = "build" ∧ (t.target = "t" ∧ ∀ r, IsTarget splitItems "t" r → t.Drops r) ∧
      (all.target = "all" ∧ ∀ r, IsTarget splitItems "all" r → all.Drops r) ∧
      test.target = "test" ∧ ∀ r, IsTarget splitItems "test" r → test.Drops r := by
    have hcases := hsplits.cases
    rw [htargets] at hcases
    obtain ⟨build, _, hbuild, hthree, hlist⟩ := List.forall₂_cons_left_iff.1 hcases
    obtain ⟨t, _, ht, htwo, rfl⟩ := List.forall₂_cons_left_iff.1 hthree
    obtain ⟨all, _, hall, hone, rfl⟩ := List.forall₂_cons_left_iff.1 htwo
    obtain ⟨test, _, htest, hnone, rfl⟩ := List.forall₂_cons_left_iff.1 hone
    rw [List.forall₂_nil_left_iff.1 hnone] at hlist
    exact ⟨build, t, all, test, hlist, hbuild.1, ⟨ht.1, ht.2.2⟩, ⟨hall.1, hall.2.2⟩, htest.1, htest.2.2⟩
  have hbuilds : IsTarget splitItems t.target splitBuild :=
    ⟨[], List.mem_cons_self, .inr (by rw [ht.1]; exact List.mem_cons_self)⟩
  have halls : IsTarget splitItems "all" splitAll :=
    ⟨[], List.mem_cons_of_mem _ List.mem_cons_self, .inl rfl⟩
  have htests : IsTarget splitItems "test" splitTest :=
    ⟨["linux"], List.mem_cons_of_mem _ (List.mem_cons_of_mem _ List.mem_cons_self), .inl rfl⟩
  refine ⟨hparse, hdistinct, script, p, s, hscript, htext, hlayout, hsplits, build, t, all, test, hlist, hbuild, ht.1,
    hall.1, htest.1, fun w => ?_, ?_⟩
  · have hloop := hsplits.loop w ["all", "3", "4"] ⟨["3", "4"], [], [(t.function, ["1", "2", "all", "3", "4"]),
      (all.function, ["3", "4"])]⟩ [(t, ["1", "2"])]
    have hwords : Script.words [(t, ["1", "2"])] ++ ["all", "3", "4"] = ["t", "1", "2", "all", "3", "4"] := by
      rw [Script.words, List.flatMap_singleton, ht.1]
      rfl
    have hfind : [build, t, all, test].find? (fun c => c.target == "all") = some all := by
      rw [List.find?_cons, List.find?_cons, List.find?_cons, hbuild, ht.1, hall.1]
      rfl
    rw [hwords, hlist] at hloop
    rw [hlist]
    refine hloop ?_ (.left rfl hfind ?_)
    · intro g hg
      rw [List.mem_singleton.1 hg]
      exact ⟨List.mem_cons_of_mem _ List.mem_cons_self, splitBuild, hbuilds, rfl, rfl⟩
    · exact (hall.2 splitAll halls).variadic rfl w _ ["3", "4"] (by rw [hall.1])
  · -- the third recipe is the one for a platform
    have hcount : s.functions.length = 3 := hsplits.functions.length_eq.symm
    obtain ⟨f, g, h, hfunctions⟩ := List.length_eq_three.1 hcount
    have hzip : ((["linux"], splitTest), h) ∈ (recipesIn splitItems).zip s.functions := by
      rw [hfunctions]
      exact List.mem_cons_of_mem _ (List.mem_cons_of_mem _ List.mem_cons_self)
    have hmem : test ∈ s.cases := by
      rw [hlist]
      simp
    have hreaches := hsplits.reached test hmem _ hzip (.inl htest.1)
    have hlinux : Platform.ofAttributes ["linux"] ≠ [] := by decide
    obtain ⟨w, hw⟩ := hreaches.chosen hlinux
    refine ⟨w, h, (List.of_mem_zip hzip).2, hw ["5"], ?_, ?_⟩
    · exact (List.forall₂_zip hsplits.functions hzip).2.bound []
    · exact (htest.2 splitTest htests).plain rfl w (.start ["test", "5"]) ["5"] (by rw [htest.1]; rfl)

end Justfile
