import Justfile.Compile
import Justfile.Proofs.Naming

/-!
# The stages of compiling

A justfile is read to items, the items make a program, and the program makes a script. What a stage that succeeds has
done is said once for each of them.

* `mapM_eq_ok_map`, `map_eq_of_mapM_eq_ok`, `mapM_eq_error`: going through a list that may fail at a member.
* `parse_cases`, `parse_eq_ok`: how reading ends.
* `Program.assembled_of_ofItems`: all parts of a program, from its items.
* `Script.assembled_of_ofProgram`: all parts of a script, from its program.
* `compileItems_eq_ok_iff`, `compile_eq_ok`: compiling is one stage after the other.
-/

namespace Justfile

open Shell

section Lists

variable {α β ε : Type} {f : α → Except ε β} {l l' : List α} {bs bs' : List β}

/-- What is gone through with success, member by member. -/
theorem mapM_eq_ok_map {g : α → β} (h : ∀ a ∈ l, f a = .ok (g a)) : l.mapM f = .ok (l.map g) := by
  induction l with
  | nil => rfl
  | cons a l ih =>
    rw [List.forall_mem_cons] at h
    rw [List.mapM_cons, h.1, ih h.2]
    rfl

theorem exists_mapM_eq_ok (h : ∀ a ∈ l, ∃ b, f a = .ok b) : ∃ bs, l.mapM f = .ok bs := by
  induction l with
  | nil => exact ⟨[], rfl⟩
  | cons a l ih =>
    obtain ⟨b, hb⟩ := h a List.mem_cons_self
    obtain ⟨bs, hbs⟩ := ih fun a' ha' => h a' (List.mem_cons_of_mem a ha')
    refine ⟨b :: bs, ?_⟩
    rw [List.mapM_cons, hb, hbs]
    rfl

/-- What is gone through up to the first member that fails. -/
theorem mapM_eq_error {g : α → β} {before after : List α} {a : α} {e : ε} (h : ∀ b ∈ before, f b = .ok (g b))
    (ha : f a = .error e) : (before ++ a :: after).mapM f = .error e := by
  induction before with
  | nil =>
    rw [List.nil_append, List.mapM_cons, ha]
    rfl
  | cons b before ih =>
    rw [List.forall_mem_cons] at h
    rw [List.cons_append, List.mapM_cons, h.1, ih h.2]
    rfl

/-- What is gone through with success has one result for each member. -/
theorem map_eq_of_mapM_eq_ok (h : l.mapM f = .ok bs) : l.map f = bs.map .ok := by
  induction l generalizing bs with
  | nil =>
    cases h
    rfl
  | cons a l ih =>
    rw [List.mapM_cons] at h
    cases ha : f a with
    | error e =>
      rw [ha] at h
      cases h
    | ok b =>
      rw [ha] at h
      cases hl : l.mapM f with
      | error e =>
        rw [hl] at h
        cases h
      | ok bs' =>
        rw [hl] at h
        cases h
        rw [List.map_cons, List.map_cons, ha, ih hl]

theorem perm_of_mapM_eq_ok (hperm : l.Perm l') (h : l.mapM f = .ok bs) (h' : l'.mapM f = .ok bs') : bs.Perm bs' := by
  have hmap := hperm.map f
  rw [map_eq_of_mapM_eq_ok h, map_eq_of_mapM_eq_ok h'] at hmap
  exact (List.map_perm_map_iff fun _ _ heq => Except.ok.inj heq).1 hmap

end Lists

section Reading

open Parsing

variable {text : String} {items : List Item}

/-- **How reading a justfile ends.** -/
theorem parse_cases (text : String) :
    (∃ items next far, (file ((prepare text.toList).length + 1) : Parser Unit (List Item)).run
        ⟨prepare text.toList, 0⟩ () = (.done items next far, ()) ∧ parse text = .ok items) ∨
      (∃ row column, parse text = .error (.unreadable row column)) ∨
        ∃ recipe, parse text = .error (.variadicNeedsDefault recipe) := by
  unfold parse Parsing.read
  split
  · rename_i items next far t hrun
    exact .inl ⟨items, next, far, hrun, rfl⟩
  · exact .inr (.inl ⟨_, _, rfl⟩)
  · exact .inr (.inr ⟨_, rfl⟩)

/-- Items that are read are what the grammar reads from the prepared text. -/
theorem parse_eq_ok (h : parse text = .ok items) :
    ∃ next far, (file ((prepare text.toList).length + 1) : Parser Unit (List Item)).run ⟨prepare text.toList, 0⟩ () =
      (.done items next far, ()) := by
  rcases parse_cases text with ⟨items', next, far, hrun, hok⟩ | ⟨row, column, herror⟩ | ⟨recipe, herror⟩
  · cases hok.symm.trans h
    exact ⟨next, far, hrun⟩
  · cases herror.symm.trans h
  · cases herror.symm.trans h

end Reading

/-- A program with all its parts, made from items with a table of names. -/
structure Program.Assembled (items : List Item) (t : Names) (p : Program) : Prop where
  settings : Settings.ofItems items = .ok p.settings
  values : p.values = variablesOf items
  exports : p.exports = exportsOf items
  helpers : (Helpers.ofItems items).result t = .ok p.helpers
  /-- Nothing but the helpers takes names. -/
  table : (ofItems items).table t = (Helpers.ofItems items).table t
  privates : p.privates = privatesOf items
  recipes : collectRecipes (p.settings.isGiven "allow-duplicate-recipes") [] items = .ok p.recipes
  platforms : p.platforms = platformsOf items
  docs : p.docs = docsOf items
  parameters : p.parameters = withAliases (parametersOf items).1 items
  aliases : p.aliases = aliasesOf items
  uniqueRecipes : p.uniqueRecipes = (Targets.inOrder p.aliases p.privates.contains p.recipes).recipes
  targets : p.targets = (Targets.inOrder p.aliases p.privates.contains p.recipes).all
  sortedTargets : p.sortedTargets = Targets.sorted p.aliases p.privates.contains p.recipes
  warnings : p.warnings = (parametersOf items).2
  items : p.items = items

/-- **What a program is made of.** -/
theorem Program.assembled_of_ofItems {items : List Item} {t : Names} {p : Program}
    (h : (ofItems items).result t = .ok p) : p.Assembled items t := by
  obtain ⟨settings, hsettings, h, ht⟩ := Naming.bind_eq_ok h
  obtain ⟨helpers, hhelpers, h, ht'⟩ := Naming.bind_eq_ok h
  obtain ⟨recipes, hrecipes, h, ht''⟩ := Naming.bind_eq_ok h
  cases h
  exact {
    settings := hsettings
    values := rfl
    exports := rfl
    helpers := hhelpers
    table := ht.trans (ht'.trans ht'')
    privates := rfl
    recipes := hrecipes
    platforms := rfl
    docs := rfl
    parameters := rfl
    aliases := rfl
    uniqueRecipes := rfl
    targets := rfl
    sortedTargets := rfl
    warnings := rfl
    items := rfl }

/-- A script with all its parts, made from a program with a table of names. What takes names comes after the
assignments, and the entries come first of that. -/
structure Script.Assembled (edition : Edition) (outfile justfile : String) (p : Program) (t : Names) (s : Script) :
    Prop where
  version : s.version = edition.version
  banner : bannerText edition outfile = .ok s.banner
  helpers : s.helpers = p.helpers.values
  dotenv : s.dotenv = p.settings.isGiven "dotenv-load"
  tempdir : s.tempdir = p.settings.find? "tempdir"
  shell : (s.shell, s.shellArgs) = p.settings.shell?.getD ("sh", ["-cu"])
  assignments : (p.values.entries.mapM fun x => assignmentOf x.1 x.2).result t = .ok s.assignments
  entries : (entriesOf p).result ((p.values.entries.mapM fun x => assignmentOf x.1 x.2).table t) = .ok s.entries
  recipes : s.recipes = p.uniqueRecipes
  sortedList : p.sortedTargets.mapM (listedOf p) = .ok s.sortedList
  list : (p.targets.filter fun n => !p.privates.contains n).mapM (listedOf p) = .ok s.list
  sortedVariables : ∃ t', ((sortStrings p.values.keys).mapM variableOf).result t' = .ok s.sortedVariables
  declared : ∃ t', (p.values.keys.mapM variableOf).result t' = .ok s.declared
  targets : s.targets = p.targets
  cases : ∃ t', (p.targets.mapM (caseOf p)).result t' = .ok s.cases
  default : ∃ t', (defaultOf p).result t' = .ok s.default
  justfile : s.justfile = justfile

/-- **What a script is made of.** -/
theorem Script.assembled_of_ofProgram {edition : Edition} {outfile justfile : String} {p : Program} {t : Names}
    {s : Script} (h : (ofProgram edition outfile justfile p).result t = .ok s) :
    s.Assembled edition outfile justfile p t := by
  obtain ⟨banner, hbanner, h, -⟩ := Naming.bind_eq_ok h
  obtain ⟨assignments, hassignments, h, -⟩ := Naming.bind_eq_ok h
  obtain ⟨entries, hentries, h, -⟩ := Naming.bind_eq_ok h
  obtain ⟨sortedList, hsortedList, h, -⟩ := Naming.bind_eq_ok h
  obtain ⟨list, hlist, h, -⟩ := Naming.bind_eq_ok h
  obtain ⟨sortedVariables, hsortedVariables, h, -⟩ := Naming.bind_eq_ok h
  obtain ⟨declared, hdeclared, h, -⟩ := Naming.bind_eq_ok h
  obtain ⟨cases, hcases, h, -⟩ := Naming.bind_eq_ok h
  obtain ⟨default, hdefault, h, -⟩ := Naming.bind_eq_ok h
  cases h
  exact {
    version := rfl
    banner := hbanner
    helpers := rfl
    dotenv := rfl
    tempdir := rfl
    shell := rfl
    assignments := hassignments
    entries := hentries
    recipes := rfl
    sortedList := hsortedList
    list := hlist
    sortedVariables := ⟨_, hsortedVariables⟩
    declared := ⟨_, hdeclared⟩
    targets := rfl
    cases := ⟨_, hcases⟩
    default := ⟨_, hdefault⟩
    justfile := rfl }

section Compiling

variable {text script : String} {items : List Item} {edition : Edition} {outfile : String}

/-- Compiling a text is compiling its items. -/
theorem compile_eq_compileItems (hparse : parse text = .ok items) :
    compile edition outfile text = compileItems edition outfile text items := by
  unfold compile
  rw [hparse]

/-- Items that make no program are refused for the same reason. -/
theorem compileItems_of_error {f : Failure} (hp : (Program.ofItems items).result .empty = .error f) :
    (compileItems edition outfile text items).script = .error f := by
  unfold compileItems
  unfold Naming.result at hp
  obtain ⟨result, names, hrun⟩ : ∃ result names, (Program.ofItems items).run.run .empty = (result, names) :=
    ⟨_, _, rfl⟩
  rw [hrun] at hp ⊢
  cases hp
  rfl

/-- Items that make a program are compiled by making the script of that. -/
theorem compileItems_of_ofItems {p : Program} (hp : (Program.ofItems items).result .empty = .ok p) :
    (compileItems edition outfile text items).script =
      ((Script.ofProgram edition outfile text p).result ((Program.ofItems items).table .empty)).map Script.text := by
  unfold compileItems Naming.result Naming.table
  unfold Naming.result at hp
  obtain ⟨result, names, hrun⟩ : ∃ result names, (Program.ofItems items).run.run .empty = (result, names) :=
    ⟨_, _, rfl⟩
  rw [hrun] at hp ⊢
  cases hp
  simp only
  cases hs : ((Script.ofProgram edition outfile text p).run.run names).1 with
  | error f => rfl
  | ok s => rfl

theorem compileItems_eq_error_iff {p : Program} (hp : (Program.ofItems items).result .empty = .ok p) {f : Failure} :
    (compileItems edition outfile text items).script = .error f ↔
      (Script.ofProgram edition outfile text p).result ((Program.ofItems items).table .empty) = .error f := by
  rw [compileItems_of_ofItems hp]
  cases (Script.ofProgram edition outfile text p).result ((Program.ofItems items).table .empty) with
  | error g => simp only [Except.map, Except.error.injEq]
  | ok s => simp only [Except.map, reduceCtorEq]

theorem compileItems_eq_ok_iff {p : Program} (hp : (Program.ofItems items).result .empty = .ok p) :
    (compileItems edition outfile text items).script = .ok script ↔ ∃ s,
      (Script.ofProgram edition outfile text p).result ((Program.ofItems items).table .empty) = .ok s ∧
        s.text = script := by
  rw [compileItems_of_ofItems hp]
  cases (Script.ofProgram edition outfile text p).result ((Program.ofItems items).table .empty) with
  | error f => simp only [Except.map, reduceCtorEq, false_and, exists_false]
  | ok s => simp only [Except.map, Except.ok.injEq, exists_eq_left']

/-- **A justfile that is compiled has a program and a script.** -/
theorem compile_eq_ok (hparse : parse text = .ok items) (h : (compile edition outfile text).script = .ok script) :
    ∃ p s, (Program.ofItems items).result .empty = .ok p ∧
      (Script.ofProgram edition outfile text p).result ((Program.ofItems items).table .empty) = .ok s ∧
      s.text = script := by
  rw [compile_eq_compileItems hparse] at h
  cases hp : (Program.ofItems items).result .empty with
  | error f =>
    rw [compileItems_of_error hp] at h
    cases h
  | ok p =>
    obtain ⟨s, hs, htext⟩ := (compileItems_eq_ok_iff hp).1 h
    exact ⟨p, s, rfl, hs, htext⟩

end Compiling

end Justfile
