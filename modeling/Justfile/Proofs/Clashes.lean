import Justfile.Proofs.Declared

/-!
# Names that clash

All variables of a script are global, and one table has all its names. So the function of a dependency can
write to a variable of the recipe that it is run for, and a name that is known outside the script can come
too late to keep its form.

* `argument_overwritten_iff`: a dependency writes to the variable of a parameter just if it has a parameter
  with the same name.
* `Settled.eq_self_iff`: a name without dashes keeps its form unless another name has taken it.
* `Script.FixedNames`: what becomes of the names of functions and of the environment. `fixed_names`: this
  holds of every script.
-/

namespace Justfile

open Shell Shell.Names

/-- **Which arguments a dependency overwrites.** The variable of a parameter is written by the function of a
recipe that runs before just if that recipe has a parameter of the same name. -/
theorem argument_overwritten_iff {edition : Edition} {outfile text script : String} {items : List Item}
    (hparse : parse text = .ok items) (hscript : (compile edition outfile text).script = .ok script) :
    ∃ p s, (Program.ofItems items).result .empty = .ok p ∧
      (Script.ofProgram edition outfile text p).result ((Program.ofItems items).table .empty) = .ok s ∧
      s.text = script ∧
      List.Forall₂ (fun x f => x.2.params.length = f.writes.length) (recipesIn items) s.functions ∧
      ∀ x ∈ (recipesIn items).zip s.functions, ∀ y ∈ (recipesIn items).zip s.functions,
        ∀ d ∈ x.1.2.before, d.name = y.1.2.name →
          (Platform.ofAttributes y.1.1 = [] → ∃ run ∈ x.2.before, run.call.function = y.2.name) ∧
          ∀ z ∈ x.1.2.params.zip x.2.writes,
            z.2 ∈ y.2.writes ↔ ∃ q ∈ y.1.2.params, q.base.name = z.1.base.name := by
  obtain ⟨p, s, hp, hs, htext, hmade⟩ := made_of_compile hparse hscript
  refine ⟨p, s, hp, hs, htext, hmade.functions.imp fun _ _ hf => hf.writes.length_eq, ?_⟩
  intro x hx y hy d hd hname
  have hf := List.forall₂_zip hmade.functions hx
  have hg := List.forall₂_zip hmade.functions hy
  refine ⟨fun hplatforms => ?_, fun z hz => ⟨fun hmem => ?_, fun ⟨q, hq, hqz⟩ => ?_⟩⟩
  · obtain ⟨run, hrun, hof⟩ := exists_right_of_mem hf.before d hd
    have hgname := hg.name
    rw [hplatforms] at hgname
    refine ⟨run, hrun, (hmade.settled.eq_iff hof.function hgname).2 ?_⟩
    rw [hname]
    rfl
  · obtain ⟨q, hq, hfind⟩ := exists_left_of_mem hg.writes z.2 hmem
    have hfull := (hmade.settled.eq_iff hfind (List.forall₂_zip hf.writes hz)).1 rfl
    exact ⟨q, hq, (String.append_right_inj "VAR_").1 hfull⟩
  · obtain ⟨v, hv, hfind⟩ := exists_right_of_mem hg.writes q hq
    rw [hqz] at hfind
    rw [(hmade.settled.eq_iff (List.forall₂_zip hf.writes hz) hfind).2 rfl]
    exact hv

/-- A recipe with two parameters, and a dependency that has one of them too. -/
def sharedText : String :=
  "run a b: (build \"x\")\n  echo \x7b\x7b a \x7d\x7d\nbuild a:\n  echo \x7b\x7b a \x7d\x7d\n"

def sharedRun : Recipe where
  echo := true
  name := "run"
  parameters := [⟨false, "a", none⟩, ⟨false, "b", none⟩]
  variadic := none
  before := [⟨"build", [.text "x"]⟩]
  after := []
  body := [⟨none, [.text "echo ", .interpolation (.var "a")]⟩]

def sharedBuild : Recipe where
  echo := true
  name := "build"
  parameters := [⟨false, "a", none⟩]
  variadic := none
  before := []
  after := []
  body := [⟨none, [.text "echo ", .interpolation (.var "a")]⟩]

def sharedItems : List Item :=
  [⟨[], .recipe sharedRun⟩, ⟨[], .recipe sharedBuild⟩]

/-- The dependency writes to the first variable of the recipe, and not to the second. -/
theorem argument_overwritten_iff_shared :
    parse sharedText = .ok sharedItems ∧
      ∃ script, (compile ⟨"2000-01-02", "unknown"⟩ "just.sh" sharedText).script = .ok script ∧
        ∃ (s : Script) (run build : Script.RecipeFunction) (a b : String),
          s.text = script ∧ s.functions = [run, build] ∧ run.writes = [a, b] ∧
          (∃ r ∈ run.before, r.call.function = build.name) ∧ a ∈ build.writes ∧ b ∉ build.writes := by
  have hparse : parse sharedText = .ok sharedItems := by decide +kernel
  obtain ⟨script, hscript⟩ := compile_succeeds isDate_sample hparse rfl (by decide +kernel) rfl
  obtain ⟨p, s, -, -, htext, hwrites, hiff⟩ := argument_overwritten_iff hparse hscript
  obtain ⟨run, build, hfunctions⟩ := List.length_eq_two.1 hwrites.length_eq.symm
  rw [hfunctions] at hwrites hiff
  cases hwrites with
  | cons hrun _ =>
    obtain ⟨a, b, hab⟩ := List.length_eq_two.1 hrun.symm
    obtain ⟨hcall, hshared⟩ := hiff (([], sharedRun), run) List.mem_cons_self (([], sharedBuild), build)
      (List.mem_cons_of_mem _ List.mem_cons_self) ⟨"build", [.text "x"]⟩ List.mem_cons_self rfl
    rw [hab] at hshared
    refine ⟨hparse, script, hscript, s, run, build, a, b, htext, hfunctions, hab, hcall rfl, ?_, ?_⟩
    · exact (hshared (.plain ⟨false, "a", none⟩, a) List.mem_cons_self).2 ⟨_, List.mem_cons_self, rfl⟩
    · intro hb
      obtain ⟨q, hq, hname⟩ := (hshared (.plain ⟨false, "b", none⟩, b)
        (List.mem_cons_of_mem _ List.mem_cons_self)).1 hb
      rw [List.mem_singleton.1 hq] at hname
      have hne : "a" ≠ "b" := by decide
      exact hne hname

namespace Shell.Names

variable {u : Names} {shell n m : String}

/-- **A name without dashes keeps its form unless another name has taken it.** -/
theorem Settled.eq_self_iff (hu : Settled u) (hfind : u.find? shell = some n) (hdash : dashless n = n) :
    shell = n ↔ ∀ m, u.find? n = some m → m = n := by
  constructor
  · intro heq m hm
    rw [heq, hm] at hfind
    exact Option.some.inj hfind
  · intro h
    have hfree : u.isFree n (candidate (dashless n) 0) = true := by
      rw [hdash]
      by_contra hfree
      obtain ⟨m, hm, hne⟩ := isFree_eq_false_iff.1 (Bool.eq_false_iff.2 hfree)
      exact hne (h m hm)
    rw [← hu _ _ hfind, shellName_eq_of_least hfree fun j hj => absurd hj (Nat.not_lt_zero j)]
    exact hdash

theorem Settled.eq_candidate (hu : Settled u) (hfind : u.find? shell = some m) :
    ∃ k, shell = candidate (dashless m) k := by
  obtain ⟨k, -, hk, -⟩ := shellName_least u m
  exact ⟨k, by rw [← hu _ _ hfind, hk]⟩

/-- **Where no name has dashes all names keep their form.** -/
theorem Settled.eq_self_of_dashless (hu : Settled u)
    (hall : ∀ shell m, u.find? shell = some m → dashless m = m) (hfind : u.find? shell = some n) : shell = n := by
  induction hlength : n.length using Nat.strong_induction_on generalizing shell n with
  | _ length ih =>
    rw [hu.eq_self_iff hfind (hall _ _ hfind)]
    intro m hm
    obtain ⟨k, hk⟩ := hu.eq_candidate hm
    rw [hall _ _ hm] at hk
    cases k with
    | zero => exact hk.symm
    | succ k =>
      -- a name that takes another with a number is shorter, so it was not taken itself
      have hlt : m.length < n.length := by
        rw [hk, candidate, String.length_append, String.length_append]
        have hone : "_".length = 1 := rfl
        omega
      exact (ih m.length (hlength ▸ hlt) hm rfl).symm

theorem dashless_append (a b : String) : dashless (a ++ b) = dashless a ++ dashless b := by
  unfold dashless
  rw [String.toList_append, List.map_append, String.ofList_append]

theorem candidate_eq_append (base : String) (k : Nat) : ∃ more, candidate base k = base ++ more := by
  cases k with
  | zero => exact ⟨"", String.append_empty.symm⟩
  | succ k => exact ⟨"_" ++ toString (k + 2), String.append_assoc⟩

/-- How the names begin that a script takes for what it adds. -/
def internalHeads : List (List Char) :=
  ["VAR".toList, "FUN".toList, "FOR".toList, "HAS".toList, "if_".toList]

theorem head_candidate (head name : String) (k : Nat) (hdash : dashless head = head) (hlength : 3 ≤ head.length) :
    (candidate (dashless (head ++ name)) k).toList.take 3 = head.toList.take 3 := by
  obtain ⟨more, hmore⟩ := candidate_eq_append (dashless (head ++ name)) k
  rw [hmore, dashless_append, hdash, String.append_assoc, String.toList_append]
  exact List.take_append_of_le_length hlength

theorem head_of_internal (h : Internal m) (k : Nat) :
    (candidate (dashless m) k).toList.take 3 ∈ internalHeads := by
  cases h with
  | ofVariable name =>
    rw [head_candidate "VAR_" name k (by decide) (by decide)]
    decide
  | ofFunction name =>
    rw [head_candidate "FUN_" name k (by decide) (by decide)]
    decide
  | ofForce name =>
    rw [head_candidate "FORCE_" name k (by decide) (by decide)]
    decide
  | ofHasRun name =>
    rw [head_candidate "HAS_RUN_" name k (by decide) (by decide)]
    decide
  | ofTest e =>
    unfold testName
    rw [head_candidate "if_" _ k (by decide) (by decide)]
    decide

theorem mem_definitions {d : String} (hd : Builtin.find? n = some d) : (n, d) ∈ Builtin.definitions := by
  obtain ⟨before, after, hsplit, -⟩ := List.lookup_eq_some_iff.1 hd
  rw [hsplit]
  simp

theorem dashless_of_builtin {d : String} (hd : Builtin.find? n = some d) : dashless n = n := by
  have hall : ∀ x ∈ Builtin.definitions, dashless x.1 = x.1 := by decide
  exact hall (n, d) (mem_definitions hd)

/-- **What a script adds never takes the name of a function** that expressions can call. -/
theorem Settled.not_internal (hu : Settled u) {d : String} (hd : Builtin.find? n = some d)
    (hfind : u.find? n = some m) : ¬Internal m := by
  intro hm
  have hheads : ∀ x ∈ Builtin.definitions, x.1.toList.take 3 ∉ internalHeads := by decide
  obtain ⟨k, hk⟩ := hu.eq_candidate hfind
  refine hheads (n, d) (mem_definitions hd) ?_
  rw [hk]
  exact head_of_internal hm k

end Shell.Names

/-- What is not below the arguments of a call stands in the expression. -/
theorem Expr.openNodes_subset : ∀ e : Expr, e.openNodes ⊆ e.nodes
  | .text _ | .var _ | .backtick _ | .call _ _ | .bareCall _ | .looseCond _ _ _ | .stray _ => by
    simp [openNodes, self_mem_nodes]
  | .sum left right | .path left right => by
    have hleft := openNodes_subset left
    have hright := openNodes_subset right
    intro e he
    simp only [openNodes, nodes, List.mem_cons, List.mem_append] at he ⊢
    exact he.imp id (Or.imp (@hleft e) (@hright e))
  | .cond _ left right yes no => by
    have hleft := openNodes_subset left
    have hright := openNodes_subset right
    have hyes := openNodes_subset yes
    have hno := openNodes_subset no
    intro e he
    simp only [openNodes, nodes, List.mem_cons, List.mem_append] at he ⊢
    exact he.imp id (Or.imp (Or.imp (Or.imp (@hleft e) (@hright e)) (@hyes e)) (@hno e))

section Nodes

variable {items : List Item}

theorem nodes_subset_exprNodes {e : Expr} (he : e ∈ exprNodes items) : e.nodes ⊆ exprNodes items := by
  obtain ⟨i, hi, he⟩ := List.mem_flatMap.1 he
  obtain ⟨root, hroot, he⟩ := List.mem_flatMap.1 he
  exact fun e' he' => mem_exprNodes hi hroot (Expr.nodes_subset he he')

theorem openExprNodes_subset : openExprNodes items ⊆ exprNodes items := by
  intro e he
  obtain ⟨i, hi, he⟩ := List.mem_flatMap.1 he
  obtain ⟨root, hroot, he⟩ := List.mem_flatMap.1 he
  exact mem_exprNodes hi hroot (Expr.openNodes_subset root he)

end Nodes

namespace Script

/-- The functions of conditionals. -/
def tests (s : Script) : List TestFunction :=
  s.helpers.filterMap fun
    | .test f => some f
    | _ => none

/-- The words that stand for expressions. -/
def values (s : Script) : List Word :=
  s.assignments.map (·.value) ++ s.functions.flatMap RecipeFunction.values ++ s.tests.flatMap TestFunction.words

/-- **What becomes of names that are known outside the script.** A function is called, and a variable is
exported, by the shell name for its name. That is the name itself just if no other name has taken it. Only
names that the script asks for can, and the name of a function is taken by a function or a variable at most.
Without dashes nothing is taken. -/
structure FixedNames (items : List Item) (p : Program) (u : Names) (s : Script) : Prop where
  calls : ∀ w ∈ s.values, ∀ g ∈ w.calls, ∃ e ∈ exprNodes items, ∃ f, e.function? = some f ∧ u.find? g = some f
  exports : ∀ x ∈ (recipesIn items).zip s.functions, ∀ step ∈ x.2.body.steps,
    List.Forall₂ (fun v e => u.find? e.name = some v) (exportNames p x.1.2) step.exports
  kept : ∀ n shell, u.find? shell = some n → dashless n = n → (shell = n ↔ ∀ m, u.find? n = some m → m = n)
  takers : ∀ m shell, u.find? shell = some m → Asked items p m ∧ ∃ k, shell = candidate (dashless m) k
  functions : ∀ f d, Builtin.find? f = some d → (Helper.builtin d).Defines f ∧ dashless f = f ∧
    ∀ m, u.find? f = some m → (∃ e ∈ exprNodes items, e.function? = some m) ∨
      ∃ x ∈ recipesIn items, m ∈ exportNames p x.2
  plain : (∀ m shell, u.find? shell = some m → dashless m = m) → ∀ n shell, u.find? shell = some n → shell = n

/-- The shell names of the variables that some items declare, found without the rest of their script. -/
def assignedNames? (items : List Item) : Option (List String) :=
  ((Program.ofItems items).result .empty).toOption.bind fun p =>
    ((p.values.entries.mapM fun x => assignmentOf x.1 x.2).result
      ((Program.ofItems items).table .empty)).toOption.map fun assignments => assignments.map (·.name)

theorem assignedNames?_of_ofProgram {edition : Edition} {outfile text : String} {items : List Item} {p : Program}
    {s : Script} (hp : (Program.ofItems items).result .empty = .ok p)
    (hs : (ofProgram edition outfile text p).result ((Program.ofItems items).table .empty) = .ok s) :
    assignedNames? items = some s.assigned := by
  rw [assignedNames?, hp, Except.toOption, Option.bind_some, (assembled_of_ofProgram hs).assignments]
  rfl

end Script

namespace Made

variable {items : List Item} {p : Program} {s : Script} {u : Names} (h : Made items p s u)

include h

/-- The words of a script that stand for expressions are those of expressions of the justfile. -/
theorem values : ∀ w ∈ s.values, ∃ e ∈ exprNodes items, IsWord u e w := by
  intro w hw
  unfold Script.values at hw
  rw [List.mem_append, List.mem_append] at hw
  rcases hw with (hw | hw) | hw
  · obtain ⟨a, ha, rfl⟩ := List.mem_map.1 hw
    obtain ⟨x, hx, -, hword⟩ := exists_left_of_mem h.script.assignments a ha
    rw [h.program.values] at hx
    obtain ⟨i, hi, he⟩ := exprs_of_mem_assignmentsIn (Program.mem_variablesOf x hx)
    exact ⟨x.2, mem_exprNodes hi he x.2.self_mem_nodes, hword⟩
  · obtain ⟨f, hf, hw⟩ := List.mem_flatMap.1 hw
    obtain ⟨x, hx, hof⟩ := exists_left_of_mem h.functions f hf
    obtain ⟨e, he, hword⟩ := hof.values w hw
    exact ⟨e, mem_exprNodes (mem_recipesIn.1 hx) he e.self_mem_nodes, hword⟩
  · obtain ⟨f, hf, hw⟩ := List.mem_flatMap.1 hw
    obtain ⟨helper, hhelper, hsome⟩ := List.mem_filterMap.1 hf
    cases helper with
    | test f' =>
      cases hsome
      rw [h.script.helpers] at hhelper
      obtain ⟨e, he, hof⟩ := h.tests _ hhelper f rfl
      obtain ⟨e', he', hword⟩ := hof.words w hw
      exact ⟨e', nodes_subset_exprNodes (openExprNodes_subset he) he', hword⟩
    | _ => cases hsome

theorem fixedNames : s.FixedNames items p u := by
  have hasked : ∀ m shell, u.find? shell = some m → Asked items p m := fun m shell hm => h.asked m ⟨shell, hm⟩
  refine ⟨?_, ?_, ?_, ?_, ?_, ?_⟩
  · intro w hw g hg
    obtain ⟨e, he, hword⟩ := h.values w hw
    obtain ⟨e', he', f, hf, rfl, hknown⟩ := hword.calls hg
    exact ⟨e', nodes_subset_exprNodes he he', f, hf, h.settled.find?_shellName hknown⟩
  · intro x hx step hstep
    have hof := List.forall₂_zip h.functions hx
    exact (hof.steps step hstep).exports.imp fun _ _ he => he.1
  · exact fun n shell hfind hdash => h.settled.eq_self_iff hfind hdash
  · exact fun m shell hfind => ⟨hasked m shell hfind, h.settled.eq_candidate hfind⟩
  · intro f d hd
    refine ⟨defines_of_find? hd, dashless_of_builtin hd, fun m hm => ?_⟩
    have hexternal := h.settled.not_internal hd hm
    cases hasked m f hm with
    | internal hinternal => exact absurd hinternal hexternal
    | called he hcall => exact .inl ⟨_, he, hcall⟩
    | exported hr hexport => exact .inr ⟨_, hr, hexport⟩
  · exact fun hall n shell hfind => h.settled.eq_self_of_dashless (fun shell m => hall m shell) hfind

end Made

/-- **Names that are known outside the script keep their form unless another name has it.** -/
theorem fixed_names {edition : Edition} {outfile text script : String} {items : List Item}
    (hparse : parse text = .ok items) (hscript : (compile edition outfile text).script = .ok script) :
    ∃ p s, (Program.ofItems items).result .empty = .ok p ∧
      (Script.ofProgram edition outfile text p).result ((Program.ofItems items).table .empty) = .ok s ∧
      s.text = script ∧ s.FixedNames items p (namesAfter edition outfile text items p) := by
  obtain ⟨p, s, hp, hs, htext, hmade⟩ := made_of_compile hparse hscript
  exact ⟨p, s, hp, hs, htext, hmade.fixedNames⟩

/-- Two variables that differ in a dash, one that differs from a function, and a call of that function. -/
def takenText : String :=
  "export a-b := '1'\nexport a_b := '2'\nexport sha256-file := '3'\n" ++
  "run:\n  echo\n  echo \x7b\x7b sha256_file('x') \x7d\x7d\n"

def takenItems : List Item :=
  [⟨[], .exported "a-b" (.text "1")⟩, ⟨[], .exported "a_b" (.text "2")⟩, ⟨[], .exported "sha256-file" (.text "3")⟩,
    ⟨[], .recipe {
      echo := true
      name := "run"
      parameters := []
      variadic := none
      before := []
      after := []
      body := [⟨none, [.text "echo"]⟩,
        ⟨none, [.text "echo ", .interpolation (.call "sha256_file" [.text "x"])]⟩] }⟩]

/-- For each command of an entry the variables in its environment, and the functions that its values call. -/
def Script.Entry.external : Entry → List (List String × List String)
  | .recipe f => f.body.steps.map fun step =>
      (step.exports.map (·.name), step.interpolations.flatMap fun i => i.value.calls)
  | _ => []

/-- The variable `a_b` and the function `sha256_file` get numbers. -/
theorem fixed_names_taken :
    parse takenText = .ok takenItems ∧
      ∃ script p, ∃ s : Script,
        (compile ⟨"2000-01-02", "unknown"⟩ "just.sh" takenText).script = .ok script ∧ s.text = script ∧
        s.FixedNames takenItems p (namesAfter ⟨"2000-01-02", "unknown"⟩ "just.sh" takenText takenItems p) ∧
        s.entries.flatMap Script.Entry.external =
          [(["a_b", "a_b_2", "sha256_file"], []), (["a_b", "a_b_2", "sha256_file"], ["sha256_file_2"])] := by
  have hparse : parse takenText = .ok takenItems := by decide +kernel
  have hknown : ∀ e ∈ openExprNodes takenItems, ∀ g ∈ e.function?, (Builtin.find? g).isSome = true := by
    decide +kernel
  have hexternal : ((Program.ofItems takenItems).result .empty).toOption.map (fun p =>
      ((Script.entriesOf p).result ((p.values.entries.mapM fun x => Script.assignmentOf x.1 x.2).table
        ((Program.ofItems takenItems).table .empty))).toOption.map fun entries =>
          entries.flatMap Script.Entry.external) = some (some
        [(["a_b", "a_b_2", "sha256_file"], []), (["a_b", "a_b_2", "sha256_file"], ["sha256_file_2"])]) := by
    decide +kernel
  obtain ⟨script, hscript⟩ := compile_succeeds isDate_sample hparse rfl hknown rfl
  obtain ⟨p, s, hp, hs, htext, hfixed⟩ := fixed_names hparse hscript
  rw [hp] at hexternal
  simp only [Except.toOption, Option.map_some, (Script.assembled_of_ofProgram hs).entries, Option.some.injEq] at hexternal
  exact ⟨hparse, script, p, s, hscript, htext, hfixed, hexternal⟩

end Justfile
