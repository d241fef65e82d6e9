import Justfile.Proofs.Arity

/-!
# Delegated calls

A recipe for some platforms is not called by its function but through a dispatcher, and a recipe can be called
through an alias. Both of these functions only call another one. The function of an alias hands on its
arguments. A dispatcher does not: the function for the present platform is called without arguments.

* `AliasFunction.Forwards`, `Dispatcher.Withholds`: what the two do, as they are written.
* `Chain`: from a call to another through such functions. `Chain.args`: arguments arrive if there is no dispatcher
  on the way, by induction over the chain.
* `Script.Delegates`: who calls whom, and with which arguments. `delegated_arguments`: this holds of every script.
-/

namespace Justfile

open Shell Shell.Names

theorem Platform.name_ne_empty (platform : Platform) : platform.name ≠ "" := by
  cases platform <;> decide

/-- The functions for a name with platforms: there are some, and one for each platform. -/
theorem Program.choices_platformsOf (items : List Item) :
    ∀ x ∈ (Program.platformsOf items).entries, x.2.entries ≠ [] ∧ x.2.keys.Nodup := by
  refine List.foldlRecOn (motive := fun t : Table (Table String) =>
    ∀ x ∈ t.entries, x.2.entries ≠ [] ∧ x.2.keys.Nodup) items _
    (fun x hx => absurd hx List.not_mem_nil) fun t ht i _ => ?_
  cases hd : i.declaration with
  | recipe r =>
    refine List.foldlRecOn (motive := fun t : Table (Table String) =>
      ∀ x ∈ t.entries, x.2.entries ≠ [] ∧ x.2.keys.Nodup)
      (Platform.ofAttributes i.attributes) _ ht fun t ht platform _ x hx => ?_
    rcases Table.mem_entries_put _ _ _ x hx with hx | rfl
    · exact ht x hx
    · have hold : ((t.find? r.name).getD .empty).keys.Nodup := by
        cases hfind : t.find? r.name with
        | none => exact .nil
        | some functions => exact (ht _ (Table.mem_entries_of_find? hfind)).2
      refine ⟨?_, Table.nodup_keys_put hold _ _⟩
      have hkey := (Table.mem_keys_put ((t.find? r.name).getD .empty) platform.name
        (Platform.functionName r.name (Platform.ofAttributes i.attributes)) platform.name).2 (.inr rfl)
      obtain ⟨y, hy, -⟩ := List.mem_map.1 hkey
      exact List.ne_nil_of_mem hy
  | _ => exact ht

namespace Script

/-- **The function of an alias hands on its arguments.** -/
structure AliasFunction.Forwards (f : AliasFunction) : Prop where
  text : f.text = define f.name (blockText "  " f.statements ++ "\n")
  run : ∀ (w : World) (args : List String),
    runBlock w (.start args) f.statements = (⟨args, [], [(f.target, args)]⟩, .next)

/-- **A dispatcher hands on nothing.** On every platform it calls one function at most, without arguments, and for
each of its branches there is a platform where this one is called. -/
structure Dispatcher.Withholds (d : Dispatcher) : Prop where
  text : d.text = define d.name (blockText "  " d.statements ++ "\n")
  run : ∀ (w : World) (args : List String), runBlock w (.start args) d.statements =
    (⟨args, [], ((d.present w).map fun b => (b.function, [])).toList⟩, .next)
  nonempty : d.branches ≠ []
  reached : ∀ b ∈ d.branches, ∃ w : World, d.present w = some b

/-- The function of a target gets all that is left of the command line. -/
structure TargetCase.Calls (c : TargetCase) : Prop where
  text : c.text = c.target ++ ")\n" ++ lines (c.statements.map (Statement.text "    ") ++ ["    ;;"])
  run : ∀ (w : World) (frame : Frame) (args : List String), frame.args = c.target :: args →
    (runBlock w frame c.statements).1.calls = frame.calls ++ [(c.function, args)]

section Reached

variable {u : Names} {items : List Item} {recipe : String} {choices : Table String} {d : Dispatcher}

/-- A platform on which a branch is chosen. -/
def Branch.world (b : Branch) : World where
  output detector := if detector = b.detector then b.platform else ""
  value _ := ""

theorem Dispatcher.present_world (hbranches : List.Forall₂ (Branch.Of u) choices.entries d.branches)
    (hchoices : ∀ y ∈ choices.entries, Program.IsChoice items recipe y) (hnodup : choices.keys.Nodup) {b : Branch}
    (hb : b ∈ d.branches) : d.present b.world = some b := by
  have hplatforms : d.branches.map (·.platform) = choices.keys := by
    have hrel : List.Forall₂ (· = ·) choices.keys (d.branches.map (·.platform)) :=
      List.forall₂_map_left_iff.2 (List.forall₂_map_right_iff.2 (hbranches.imp fun _ _ h => h.platform.symm))
    exact (List.forall₂_eq_eq_eq ▸ hrel).symm
  -- on this platform a branch is chosen just if it is for the same platform
  have hsame : ∀ b' ∈ d.branches, (b.world.output b'.detector == b'.platform) = (b'.platform == b.platform) := by
    intro b' hb'
    obtain ⟨y, -, hy⟩ := exists_left_of_mem hbranches b hb
    obtain ⟨y', hmem', hy'⟩ := exists_left_of_mem hbranches b' hb'
    obtain ⟨_, _, platform, -, -, -, hchoice⟩ := hchoices y' hmem'
    have hne : b'.platform ≠ "" := by
      rw [hy'.platform, hchoice]
      exact platform.name_ne_empty
    rw [Bool.eq_iff_iff, beq_iff_eq, beq_iff_eq]
    unfold Branch.world
    constructor
    · intro houtput
      simp only at houtput
      split at houtput
      · exact houtput.symm
      · exact absurd houtput.symm hne
    · intro hplatform
      have hdetector : b'.detector = b.detector := by
        rw [hy'.detector, hy.detector, ← hy'.platform, ← hy.platform, hplatform]
      simp only [hdetector, if_pos, hplatform]
  have hfind : d.branches.find? (fun b' => b'.platform == b.platform) = some b :=
    find?_of_nodup (hplatforms ▸ hnodup) hb
  unfold Dispatcher.present
  rw [← hfind]
  exact List.find?_congr hsame

theorem Dispatcher.withholds (hbranches : List.Forall₂ (Branch.Of u) choices.entries d.branches)
    (hsome : choices.entries ≠ []) (hchoices : ∀ y ∈ choices.entries, Program.IsChoice items recipe y)
    (hnodup : choices.keys.Nodup) : d.Withholds := by
  have hne : d.branches ≠ [] := by
    intro hnil
    have hlength := hbranches.length_eq
    rw [hnil] at hlength
    exact hsome (List.length_eq_zero_iff.1 hlength)
  exact ⟨d.text_eq hne, fun w args => d.run_eq w args, hne,
    fun b hb => ⟨b.world, present_world hbranches hchoices hnodup hb⟩⟩

end Reached

/-- From a call to another one through functions that only delegate. The number says how many of these are
dispatchers. -/
inductive Chain (w : World) (s : Script) : Nat → String × List String → String × List String → Prop where
  | here (call : String × List String) : Chain w s 0 call call
  | ofAlias {n : Nat} {f : AliasFunction} {args : List String} {next last : String × List String}
      (hf : f ∈ s.aliases) (hnext : next ∈ (runBlock w (.start args) f.statements).1.calls)
      (more : Chain w s n next last) : Chain w s n (f.name, args) last
  | ofDispatcher {n : Nat} {d : Dispatcher} {args : List String} {next last : String × List String}
      (hd : d ∈ s.dispatchers) (hnext : next ∈ (runBlock w (.start args) d.statements).1.calls)
      (more : Chain w s n next last) : Chain w s (n + 1) (d.name, args) last

/-- **Arguments arrive if there is no dispatcher on the way**, and else none do. -/
theorem Chain.args {w : World} {s : Script} {n : Nat} {call last : String × List String}
    (h : Chain w s n call last) : last.2 = if n = 0 then call.2 else [] := by
  induction h with
  | here call => rfl
  | ofAlias hf hnext _ ih =>
    rw [AliasFunction.run_eq] at hnext
    rw [ih, List.mem_singleton.1 hnext]
  | ofDispatcher hd hnext _ ih =>
    rw [Dispatcher.run_eq, Option.mem_toList, Option.map_eq_some_iff] at hnext
    obtain ⟨b, -, rfl⟩ := hnext
    -- no arguments are left from here on, whatever the rest of the chain is
    rw [ih, ite_self, if_neg (Nat.succ_ne_zero _)]

/-- **Who calls whom, and with which arguments.** Targets, aliases and dependencies call the dispatcher of a
recipe for platforms, which calls its function without arguments, and this then ends the script if the recipe
needs any. Along a chain of calls the arguments arrive unchanged just if there is no dispatcher in it, or there
are none. -/
structure Delegates (items : List Item) (p : Program) (u : Names) (s : Script) : Prop where
  cases : List.Forall₂ (fun target c => c.target = target ∧ u.find? c.function = some ("FUN_" ++ target) ∧
    c.Calls) p.targets s.cases
  functions : List.Forall₂ (fun x f => f.Of u p x.1 x.2 ∧ Asks f.taking (leastCount x.2))
    (recipesIn items) s.functions
  aliases : List.Forall₂ (fun x f => u.find? f.name = some ("FUN_" ++ x.1) ∧
    u.find? f.target = some ("FUN_" ++ x.2) ∧ f.Forwards) (aliasesIn items) s.aliases
  dispatchers : ∀ d ∈ s.dispatchers, d.Withholds
  platforms : ∀ x ∈ recipesIn items, Platform.ofAttributes x.1 ≠ [] →
    ∀ g, u.find? g = some ("FUN_" ++ x.2.name) → ∃ d ∈ s.dispatchers, d.name = g
  branches : ∀ d ∈ s.dispatchers, ∀ b ∈ d.branches, ∃ x ∈ recipesIn items, Platform.ofAttributes x.1 ≠ [] ∧
    ∃ f ∈ s.functions, f.Of u p x.1 x.2 ∧ b.function = f.name
  chain : ∀ w n call last, Chain w s n call last → last.2 = (if n = 0 then call.2 else []) ∧
    (last.2 = call.2 ↔ n = 0 ∨ call.2 = [])

end Script

section Assembly

variable {items : List Item} {p : Program} {s : Script} {u : Names}

theorem Made.delegates (h : Made items p s u) (hparams : s.Parameters p) : s.Delegates items p u := by
  refine ⟨?_, ?_, ?_, fun d hd => ?_, fun x hx hplatforms g hg => ?_, fun d hd b hb => ?_,
    fun w n call last hchain => ?_⟩
  · refine (h.cases_consumptions hparams).imp fun target c hc =>
      ⟨hc.1, hc.2.1, c.text_eq, fun w frame args hargs => ?_⟩
    rw [c.run_eq w frame hargs]
  · exact (h.functions_intakes hparams).imp fun x f hf => ⟨hf.1, hf.2.asks⟩
  · exact h.aliases.imp fun x f hf => ⟨hf.1, hf.2, f.text_eq, fun w args => f.run_eq w args⟩
  · obtain ⟨x, hx, -, hbranches⟩ := exists_left_of_mem h.dispatchers d hd
    obtain ⟨hsome, hnodup⟩ := Program.choices_platformsOf items x hx
    exact Script.Dispatcher.withholds hbranches hsome (Program.mem_platformsOf x hx) hnodup
  · obtain ⟨y, hy, hkey⟩ := List.mem_map.1 (Program.mem_keys_platformsOf hx hplatforms)
    obtain ⟨d, hd, hname, -⟩ := exists_right_of_mem h.dispatchers y hy
    rw [hkey] at hname
    exact ⟨d, hd, (h.settled.eq_iff hname hg).2 rfl⟩
  · obtain ⟨attributes, r, platform, f, hf, hr, hof, hplatform, -, -, hfunction⟩ := h.branch hd hb
    exact ⟨_, hr, List.ne_nil_of_mem hplatform, f, hf, hof, hfunction⟩
  · have hargs := hchain.args
    refine ⟨hargs, ?_⟩
    rw [hargs]
    split
    · rename_i hzero
      exact iff_of_true rfl (.inl hzero)
    · rename_i hpos
      exact ⟨fun hnil => .inr hnil.symm, fun hor => (hor.resolve_left hpos).symm⟩

end Assembly

/-- **Aliases hand on their arguments and dispatchers do not**, in every script. -/
theorem delegated_arguments {edition : Edition} {outfile text script : String} {items : List Item}
    (hparse : parse text = .ok items) (hscript : (compile edition outfile text).script = .ok script) :
    ∃ p s, (Program.ofItems items).result .empty = .ok p ∧
      (Script.ofProgram edition outfile text p).result ((Program.ofItems items).table .empty) = .ok s ∧
      s.text = script ∧ s.Delegates items p (namesAfter edition outfile text items p) := by
  obtain ⟨p, s, hp, hs, htext, hmade⟩ := made_of_compile hparse hscript
  exact ⟨p, s, hp, hs, htext, hmade.delegates (Script.parameters_of_ofProgram (Program.settled_ofItems hp) hs)⟩

/-- A recipe for one platform that needs an argument, and an alias of it. -/
def linuxText : String :=
  "[linux]\nbuild x:\n  echo\nalias b := build\n"

def linuxBuild : Recipe where
  echo := true
  name := "build"
  parameters := [⟨false, "x", none⟩]
  variadic := none
  before := []
  after := []
  body := [⟨none, [.text "echo"]⟩]

def linuxItems : List Item :=
  [⟨["linux"], .recipe linuxBuild⟩, ⟨[], .alias "b" "build"⟩]

/-- Called through its alias with one argument, the recipe gets none, and ends the script. -/
theorem delegated_arguments_linux :
    parse linuxText = .ok linuxItems ∧
      ∃ script, ∃ s : Script,
        (compile ⟨"2000-01-02", "unknown"⟩ "just.sh" linuxText).script = .ok script ∧ s.text = script ∧
        ∃ w, ∃ a ∈ s.aliases, ∃ f ∈ s.functions,
          Script.Chain w s 1 (a.name, ["1"]) (f.name, []) ∧ Asks f.taking 1 := by
  have hparse : parse linuxText = .ok linuxItems := by decide +kernel
  obtain ⟨script, hscript⟩ := compile_succeeds isDate_sample hparse rfl (by decide +kernel) rfl
  obtain ⟨p, s, -, -, htext, hdelegates⟩ := delegated_arguments hparse hscript
  obtain ⟨a, ha, -, htarget, hforwards⟩ := exists_right_of_mem hdelegates.aliases ("b", "build") List.mem_cons_self
  obtain ⟨d, hd, hname⟩ := hdelegates.platforms (["linux"], linuxBuild) List.mem_cons_self (by decide) _ htarget
  have hwithholds := hdelegates.dispatchers d hd
  obtain ⟨b, hb⟩ := List.exists_mem_of_ne_nil _ hwithholds.nonempty
  obtain ⟨w, hw⟩ := hwithholds.reached b hb
  obtain ⟨x, hx, -, f, hf, -, hfunction⟩ := hdelegates.branches d hd b hb
  have hasks : Asks f.taking 1 := by
    obtain ⟨y, hy, -, hasks⟩ := exists_left_of_mem hdelegates.functions f hf
    rw [List.mem_singleton.1 hy] at hasks
    exact hasks
  have hchosen : Script.Chain w s 1 (a.target, ["1"]) (f.name, []) := by
    rw [← hname]
    refine .ofDispatcher hd ?_ (.here _)
    rw [hwithholds.run, hw, ← hfunction]
    exact List.mem_singleton.2 rfl
  refine ⟨hparse, script, s, hscript, htext, w, a, ha, f, hf, .ofAlias ha ?_ hchosen, hasks⟩
  rw [hforwards.run]
  exact List.mem_singleton.2 rfl

end Justfile
