import Justfile.Proofs.Clashes

/-!
# Flags of recipes

A script has two variables for each recipe, one that says that it has run and one that forces it to run. It also
says in a variable of the first kind that the variables of the justfile are assigned, and no name is kept free for
that. So a recipe can share it.

* `Script.assignedIn`: the names that a text assigns something to, or may seem to.
* `Script.fixedTexts`: the texts that are the same in every script. `harmless_fixedTexts`: the names in them are not
  those of flags, apart from the one that every script has.
* `RecipeFunction.sets`: the variables that the function of a recipe sets.
* `Script.FlagOwners`: what else can be the flag of a recipe. `flag_owners`: this holds of every script.
-/

namespace Justfile

open Shell Shell.Names

namespace Script

/-- The characters in names of shell variables. -/
def isNameChar (c : Char) : Bool :=
  c.isAlphanum || c == '_'

/-- The name that a text ends with, last character first. The characters of `name` stand before the text. -/
def lastName (name : List Char) : List Char → List Char
  | [] => name
  | c :: cs => if isNameChar c then lastName (c :: name) cs else lastName [] cs

/-- The names before the equals signs of a text. The characters of `name` stand before the text. -/
def assignedFrom (name : List Char) : List Char → List (List Char)
  | [] => []
  | c :: cs =>
    if isNameChar c then assignedFrom (c :: name) cs
    else if c = '=' ∧ name ≠ [] then name.reverse :: assignedFrom [] cs
    else assignedFrom [] cs

/-- The names before the equals signs of a text: whatever the text assigns something to, and maybe more. -/
def assignedIn (text : String) : List String :=
  (assignedFrom [] text.toList).map String.ofList

theorem assignedFrom_append (name cs ds : List Char) :
    assignedFrom name (cs ++ ds) = assignedFrom name cs ++ assignedFrom (lastName name cs) ds := by
  induction cs generalizing name with
  | nil => rfl
  | cons c cs ih =>
    rw [List.cons_append, assignedFrom, assignedFrom, lastName]
    split
    · exact ih _
    · split
      · rw [ih, List.cons_append]
      · exact ih _

theorem lastName_append (name cs ds : List Char) : lastName name (cs ++ ds) = lastName (lastName name cs) ds := by
  induction cs generalizing name with
  | nil => rfl
  | cons c cs ih =>
    rw [List.cons_append, lastName, lastName]
    split <;> exact ih _

theorem assignedFrom_of_notMem {cs : List Char} (h : '=' ∉ cs) (name : List Char) : assignedFrom name cs = [] := by
  induction cs generalizing name with
  | nil => rfl
  | cons c cs ih =>
    rw [List.mem_cons, not_or] at h
    have hno : ¬(c = '=' ∧ name ≠ []) := fun hc => h.1 hc.1.symm
    rw [assignedFrom, if_neg hno, ih h.2, ih h.2]
    exact ite_self _

/-- The variable that says that the variables of the justfile are assigned. -/
def assignedFlag : String :=
  "HAS_RUN_assign_variables"

/-- Whether a name begins in another way than flags do, or is the one that every script has. -/
def isForeign (name : List Char) : Bool :=
  name.head? != some 'F' && (name.head? != some 'H' || name == assignedFlag.toList)

/-- No name before an equals sign is that of a recipe's flag. -/
def Harmless (text : String) : Prop :=
  (assignedFrom [] text.toList).all isForeign = true

/-- A harmless text that does not end with a name. -/
structure Tidy (text : String) : Prop where
  harmless : Harmless text
  ended : lastName [] text.toList = []

/-- Whether a text is tidy. -/
def isTidy (cs : List Char) : Bool :=
  (assignedFrom [] cs).all isForeign && (lastName [] cs).isEmpty

namespace Harmless

theorem append {a b : String} (ha : Tidy a) (hb : Harmless b) : Harmless (a ++ b) := by
  unfold Harmless
  rw [String.toList_append, assignedFrom_append, ha.ended, List.all_append, ha.harmless, hb]
  rfl

theorem of_notMem {text : String} (h : '=' ∉ text.toList) : Harmless text := by
  unfold Harmless
  rw [assignedFrom_of_notMem h]
  rfl

theorem isForeign {text v : String} (h : Harmless text) (hv : v ∈ assignedIn text) :
    Script.isForeign v.toList = true := by
  obtain ⟨cs, hcs, rfl⟩ := List.mem_map.1 hv
  rw [String.toList_ofList]
  exact List.all_eq_true.1 h cs hcs

end Harmless

namespace Tidy

theorem append {a b : String} (ha : Tidy a) (hb : Tidy b) : Tidy (a ++ b) := by
  refine ⟨Harmless.append ha hb.harmless, ?_⟩
  rw [String.toList_append, lastName_append, ha.ended, hb.ended]

theorem of_isTidy {text : String} (h : isTidy text.toList = true) : Tidy text := by
  rw [isTidy, Bool.and_eq_true, List.isEmpty_iff] at h
  exact ⟨h.1, h.2⟩

/-- Long texts are checked as lists of characters. -/
theorem ofList {cs : List Char} (h : isTidy cs = true) : Tidy (String.ofList cs) := by
  refine of_isTidy ?_
  rw [String.toList_ofList]
  exact h

/-- Words at the end of a line. -/
theorem append_line {a b : String} {cs : List Char} (ha : Tidy a) (hb : '=' ∉ b.toList) (hcs : isTidy cs = true) :
    Tidy (a ++ b ++ String.ofList ('\n' :: cs)) := by
  rw [isTidy, Bool.and_eq_true, List.isEmpty_iff] at hcs
  have htext : (a ++ b ++ String.ofList ('\n' :: cs)).toList = a.toList ++ (b.toList ++ '\n' :: cs) := by
    rw [String.toList_append, String.toList_append, String.toList_ofList, List.append_assoc]
  constructor
  · rw [Harmless, htext, assignedFrom_append, ha.ended, assignedFrom_append, assignedFrom_of_notMem hb, List.all_append,
      ha.harmless]
    exact hcs.1
  · rw [htext, lastName_append, lastName_append]
    exact hcs.2

theorem define {name body : String} (hname : '=' ∉ name.toList) (h : Tidy body) : Tidy (define name body) := by
  have hstart : Tidy (name ++ "() \x7b\n") := by
    constructor
    · refine Harmless.of_notMem ?_
      rw [String.toList_append, List.mem_append, not_or]
      exact ⟨hname, by decide⟩
    · rw [String.toList_append, lastName_append]
      rfl
  exact (hstart.append h).append (ofList rfl)

theorem definition {name body : String} (hname : '=' ∉ name.toList) (h : Tidy body) :
    Tidy (Builtin.definition name body) :=
  (h.define hname).append (ofList rfl)

end Tidy

/-- The texts in the section of variables. -/
def variableTexts : List String :=
  [strictText, dotenvText, tempdirText (some (.text "/")), optionText "" [], colourText, assignText []]

/-- The functions that every script has, without what they show of the justfile. -/
def commonTexts : List String :=
  [echoFunction, realpathFunction, errorFunction, recipeErrorFunction, echoLineFunction, setVariableFunction,
    summaryFunction [] [], usageFunction "", wrongUsageFunction, listFunction [] [], evaluateFunction [] [],
    chooseFunction []]

/-- All functions behind expressions. The words of the one for a conditional are empty. -/
def allHelpers : List Helper :=
  Builtin.definitions.map (fun d => .builtin d.2) ++
    [.backtickError, .test ⟨"", .equal, .literal "", .literal "", .literal "", .literal ""⟩]

/-- The texts that scripts have whatever the justfile declares. -/
def fixedTexts : List String :=
  variableTexts ++ commonTexts ++ allHelpers.map Helper.definition ++ [entryText "" [] none]

set_option maxRecDepth 40000 in
theorem tidy_variableTexts : ∀ t ∈ variableTexts, Tidy t := by
  have hempty : Tidy "" := .ofList rfl
  simp only [variableTexts, List.forall_mem_cons, List.not_mem_nil, false_implies, implies_true, and_true]
  refine ⟨.ofList (by decide +kernel), ?_, .of_isTidy (by decide +kernel), ?_, ?_, ?_⟩
  · exact .append (.ofList rfl) (.ofList (by decide +kernel))
  · exact ((((Tidy.ofList (by decide +kernel)).append hempty).append (.ofList (by decide +kernel))).append
      hempty).append (.ofList (by decide +kernel))
  · exact .append (.ofList rfl) (.ofList (by decide +kernel))
  · exact .define (by decide) (.append_line (.ofList (by decide +kernel)) (by decide) (by decide +kernel))

set_option maxRecDepth 40000 in
theorem tidy_commonTexts : ∀ t ∈ commonTexts, Tidy t := by
  have hempty : Tidy "" := .ofList rfl
  have hsummary : Tidy (summaryFunction [] []) :=
    .define (by decide) (.append_line (.ofList (by decide +kernel)) (by decide) rfl)
  have husage : Tidy (usageFunction "") :=
    .define (by decide) ((Tidy.append (.ofList (by decide +kernel)) hempty).append (.ofList (by decide +kernel)))
  have hlist : Tidy (listFunction [] []) :=
    .define (by decide) (.append_line (.append_line (.ofList (by decide +kernel)) (by decide) (by decide +kernel))
      (by decide) (by decide +kernel))
  have hevaluate : Tidy (evaluateFunction [] []) :=
    .define (by decide) (.append_line (.append_line (.ofList (by decide +kernel)) (by decide) (by decide +kernel))
      (by decide) (by decide +kernel))
  have hchoose : Tidy (chooseFunction []) :=
    .define (by decide) ((Tidy.append (.ofList rfl) hempty).append (.ofList (by decide +kernel)))
  simp only [commonTexts, List.forall_mem_cons, List.not_mem_nil, false_implies, implies_true, and_true]
  refine ⟨?_, ?_, ?_, ?_, ?_, ?_, hsummary, husage, ?_, hlist, hevaluate, hchoose⟩
  all_goals exact .define (by decide) (.ofList (by decide +kernel))

set_option maxRecDepth 40000 in
theorem tidy_builtins : ∀ d ∈ Builtin.definitions, Tidy d.2 := by
  have hparameter : Tidy Builtin.quotedParameter := .of_isTidy (by decide)
  have henvVarOrDefault : Tidy Builtin.envVarOrDefault :=
    .definition (by decide)
      (((Tidy.ofList (by decide +kernel)).append hparameter).append (.ofList (by decide +kernel)))
  have henvVar : Tidy Builtin.envVar :=
    .definition (by decide)
      (((Tidy.ofList (by decide +kernel)).append hparameter).append (.ofList (by decide +kernel)))
  have hrandom : Tidy Builtin.randomHexBytes := .definition (by decide) (.ofList (by decide +kernel))
  have huuid : Tidy Builtin.uuid :=
    (hrandom.append (.ofList rfl)).append (.definition (by decide) (.ofList (by decide +kernel)))
  simp only [Builtin.definitions, List.forall_mem_cons, List.not_mem_nil, false_implies, implies_true, and_true]
  refine ⟨?_, ?_, ?_, henvVarOrDefault, henvVar, ?_, ?_, ?_, ?_, ?_, ?_, ?_, huuid, ?_, ?_, ?_, ?_, ?_, ?_⟩
  all_goals exact .definition (by decide) (.ofList (by decide +kernel))

theorem tidy_allHelpers : ∀ h ∈ allHelpers, Tidy h.definition := by
  have hword : Tidy (Word.literal "").text := .of_isTidy (by decide +kernel)
  have hbranch : ∀ name, Tidy ("    " ++ name ++ "=") → Tidy (Word.valueOf name).text →
      Tidy (TestFunction.branch name (.literal "")) := fun name hname hvalue =>
    ((((hname.append hword).append (.ofList rfl)).append (.ofList rfl)).append hvalue).append (.ofList rfl)
  intro h hh
  rcases List.mem_append.1 hh with hh | hh
  · obtain ⟨d, hd, rfl⟩ := List.mem_map.1 hh
    exact tidy_builtins d hd
  · simp only [List.mem_cons, List.not_mem_nil, or_false] at hh
    rcases hh with rfl | rfl
    · exact .definition (by decide) (.ofList (by decide +kernel))
    · refine .definition (by decide) (((((Tidy.append (.append (.ofList rfl) ?_) (.ofList rfl)).append ?_).append
        (.ofList rfl)).append ?_).append (.ofList rfl))
      · exact .of_isTidy (by decide +kernel)
      · exact hbranch _ (.of_isTidy (by decide +kernel)) (.of_isTidy (by decide +kernel))
      · exact hbranch _ (.of_isTidy (by decide +kernel)) (.of_isTidy (by decide +kernel))

set_option maxRecDepth 40000 in
theorem harmless_entryText : Harmless (entryText "" [] none) := by
  have hempty : Tidy "" := .ofList rfl
  have hcases : Tidy (loopStart ++ "" ++ firstOptions ++ "" ++ lastOptions) :=
    ((((Tidy.ofList (by decide +kernel)).append hempty).append (.ofList (by decide +kernel))).append hempty).append
      (.ofList (by decide +kernel))
  rw [entryText, String.append_assoc]
  exact .append hcases (.of_notMem (by decide +kernel))

/-- **No fixed text sets a flag**, apart from the one that every script has. -/
theorem harmless_fixedTexts : ∀ t ∈ fixedTexts, Harmless t := by
  intro t ht
  simp only [fixedTexts, List.mem_append, List.mem_map, List.mem_singleton] at ht
  rcases ht with ((ht | ht) | ⟨h, hh, rfl⟩) | rfl
  · exact (tidy_variableTexts t ht).harmless
  · exact (tidy_commonTexts t ht).harmless
  · exact (tidy_allHelpers h hh).harmless
  · exact harmless_entryText

/-- The variables that the function of a recipe sets: its parameters, its interpolated values, what it keeps for its
body, the variables that force its dependencies, and the one that says that it has run. -/
def RecipeFunction.sets (f : RecipeFunction) : List String :=
  f.writes ++ f.interpolated ++ ["TEMPFILE", "OLD_WD"] ++ (f.before ++ f.after).map (·.force) ++ [f.hasRun]

end Script

namespace Shell.Names

variable {u : Names} {shell n : String}

/-- A shell name begins as the name that it stands for. -/
theorem Settled.head (hu : Settled u) {kind : String} (hfind : u.find? shell = some (kind ++ n))
    (hdash : dashless kind = kind) (hlength : 3 ≤ kind.length) : shell.toList.take 3 = kind.toList.take 3 := by
  obtain ⟨k, hk⟩ := hu.eq_candidate hfind
  rw [hk]
  exact head_candidate kind n k hdash hlength

/-- **The form of a name without its dashes is its shell name unless another name has taken it.** -/
theorem Settled.eq_dashless_iff (hu : Settled u) (hfind : u.find? shell = some n) :
    shell = dashless n ↔ ∀ m, u.find? (dashless n) = some m → m = n := by
  constructor
  · intro heq m hm
    rw [heq, hm] at hfind
    exact Option.some.inj hfind
  · intro h
    have hfree : u.isFree n (candidate (dashless n) 0) = true := by
      by_contra hfree
      obtain ⟨m, hm, hne⟩ := isFree_eq_false_iff.1 (Bool.eq_false_iff.2 hfree)
      exact hne (h m hm)
    rw [← hu _ _ hfind, shellName_eq_of_least hfree fun j hj => absurd hj (Nat.not_lt_zero j)]
    rfl

/-- Only what is the flag of every script but for dashes can take its name. -/
theorem dashless_eq_of_candidate {m : String} {k : Nat} (h : Script.assignedFlag = candidate (dashless m) k) :
    dashless m = Script.assignedFlag := by
  cases k with
  | zero => exact h.symm
  | succ k =>
    -- with a number at its end the name would end with a digit
    have hdigits : Nat.toDigits 10 (k + 2) ≠ [] := Nat.toDigits_ne_nil
    have hlast : (Nat.toDigits 10 (k + 2)).getLast? = some 's' := by
      have hlist : Script.assignedFlag.toList = (dashless m ++ "_").toList ++ Nat.toDigits 10 (k + 2) := by
        rw [h, candidate, String.toList_append]
        exact congrArg _ Nat.toList_repr
      rw [← List.getLast?_append_of_ne_nil _ hdigits, ← hlist]
      decide
    have hdigit := Nat.isDigit_of_mem_toDigits (by decide) (by decide) (List.mem_of_getLast? hlast)
    exact absurd hdigit (by decide)

end Shell.Names

namespace Script

theorem assignedFlag_mem_assignText (as : List Assignment) : assignedFlag ∈ assignedIn (assignText as) := by
  have hline : assignedFlag.toList ∈ assignedFrom [] ("\n\n  HAS_RUN_assign_variables=\"true\"\n".toList) := by
    decide +kernel
  unfold assignText
  generalize (if as.isEmpty then "  # No user-declared variables" else lines (as.map Assignment.text)) = body
  refine List.mem_map.2 ⟨assignedFlag.toList, ?_, String.ofList_toList⟩
  simp only [define, String.toList_append, List.append_assoc]
  iterate 4 refine (assignedFrom_append ..).symm ▸ List.mem_append_right _ ?_
  exact (assignedFrom_append ..).symm ▸ List.mem_append_left _ hline

theorem head?_of_take {c : Char} {rest cs : List Char} (h : cs.take 3 = c :: rest) : cs.head? = some c := by
  have hhead := congrArg List.head? h
  rwa [List.head?_take, if_neg (by decide), List.head?_cons] at hhead

theorem isForeign_of_force {cs : List Char} (h : cs.take 3 = "FOR".toList) : isForeign cs = false := by
  rw [isForeign, head?_of_take h]
  rfl

theorem eq_of_isForeign {cs : List Char} (h : cs.take 3 = "HAS".toList) (hcs : isForeign cs = true) :
    cs = assignedFlag.toList := by
  rw [isForeign, head?_of_take h] at hcs
  exact beq_iff_eq.1 hcs

/-- **Who sets the flags of recipes.** Recipes of different names have different flags. Only the functions of a recipe
set the variable that says that it has run, and only those that depend on it set the one that forces it. Variables of
the justfile are no flags, and fixed texts set no flag but the one that says that variables are assigned. That one is
the flag of a recipe just if the table has it for that recipe, which is then `assign_variables` up to dashes. Such a
recipe has it unless another name of the same form does. -/
structure FlagOwners (items : List Item) (p : Program) (u : Names) (s : Script) : Prop where
  flags : List.Forall₂ (fun x f => u.find? f.hasRun = some ("HAS_RUN_" ++ x.2.name) ∧
    u.find? f.force = some ("FORCE_" ++ x.2.name)) (recipesIn items) s.functions
  recipes : ∀ x ∈ (recipesIn items).zip s.functions, ∀ y ∈ (recipesIn items).zip s.functions,
    (x.2.hasRun = y.2.hasRun ↔ x.1.2.name = y.1.2.name) ∧ (x.2.force = y.2.force ↔ x.1.2.name = y.1.2.name) ∧
      x.2.hasRun ≠ y.2.force
  functions : ∀ x ∈ (recipesIn items).zip s.functions, ∀ y ∈ (recipesIn items).zip s.functions,
    (x.2.hasRun ∈ y.2.sets ↔ x.1.2.name = y.1.2.name) ∧
      (x.2.force ∈ y.2.sets → ∃ d ∈ y.1.2.before ++ y.1.2.after, d.name = x.1.2.name)
  values : ∀ x ∈ (recipesIn items).zip s.functions, x.2.hasRun ∉ s.assigned ∧ x.2.force ∉ s.assigned
  fixed : ∀ x ∈ (recipesIn items).zip s.functions, ∀ t ∈ fixedTexts,
    x.2.force ∉ assignedIn t ∧ (x.2.hasRun ∈ assignedIn t → x.2.hasRun = assignedFlag)
  assigns : assignedFlag ∈ assignedIn (assignText s.assignments)
  shared : ∀ x ∈ (recipesIn items).zip s.functions,
    x.2.hasRun = assignedFlag ↔ u.find? assignedFlag = some ("HAS_RUN_" ++ x.1.2.name)
  apart : ∀ x ∈ (recipesIn items).zip s.functions, dashless x.1.2.name ≠ "assign_variables" → x.2.hasRun ≠ assignedFlag
  taken : ∀ x ∈ (recipesIn items).zip s.functions, dashless x.1.2.name = "assign_variables" →
    x.2.hasRun = assignedFlag ∨ ∃ m, u.find? assignedFlag = some m ∧ m ≠ "HAS_RUN_" ++ x.1.2.name ∧
      dashless m = assignedFlag ∧ Asked items p m

end Script

namespace Made

variable {items : List Item} {p : Program} {s : Script} {u : Names} (h : Made items p s u)

include h

/-- How the variables begin that functions of recipes set. -/
theorem sets_head {x : (List String × Recipe) × Script.RecipeFunction} (hx : x ∈ (recipesIn items).zip s.functions)
    {v : String} (hv : v ∈ x.2.sets) :
    v.toList.take 3 ∈ ["VAR".toList, "INT".toList, "TEM".toList, "OLD".toList] ∨
      (∃ d ∈ x.1.2.before ++ x.1.2.after, u.find? v = some ("FORCE_" ++ d.name)) ∨ v = x.2.hasRun := by
  have hof := List.forall₂_zip h.functions hx
  simp only [Script.RecipeFunction.sets, List.mem_append, List.mem_cons, List.not_mem_nil, or_false] at hv
  -- parameters, interpolated values, the two fixed names, dependencies, and the recipe itself
  rcases hv with (((hv | hv) | rfl | rfl) | hv) | hv
  · obtain ⟨q, hq, hfind⟩ := exists_left_of_mem hof.writes v hv
    rw [h.settled.head hfind (by decide) (by decide)]
    exact .inl List.mem_cons_self
  · obtain ⟨step, hstep, hv⟩ := List.mem_flatMap.1 hv
    obtain ⟨i, hi, rfl⟩ := List.mem_map.1 hv
    refine .inl ?_
    rw [Script.interpolationName, String.toList_append, List.take_append_of_le_length (by decide)]
    decide
  · exact .inl (by decide)
  · exact .inl (by decide)
  · obtain ⟨run, hrun, rfl⟩ := List.mem_map.1 hv
    obtain ⟨d, hd, hrunOf⟩ := hof.run hrun
    exact .inr (.inl ⟨d, hd, hrunOf.force⟩)
  · exact .inr (.inr hv)

variable {x y : (List String × Recipe) × Script.RecipeFunction} (hx : x ∈ (recipesIn items).zip s.functions)
  (hy : y ∈ (recipesIn items).zip s.functions)

include hx

theorem find?_hasRun : u.find? x.2.hasRun = some ("HAS_RUN_" ++ x.1.2.name) :=
  (List.forall₂_zip h.functions hx).hasRun

theorem find?_force : u.find? x.2.force = some ("FORCE_" ++ x.1.2.name) :=
  (List.forall₂_zip h.functions hx).force

theorem hasRun_head : x.2.hasRun.toList.take 3 = "HAS".toList :=
  h.settled.head (h.find?_hasRun hx) (by decide) (by decide)

theorem force_head : x.2.force.toList.take 3 = "FOR".toList :=
  h.settled.head (h.find?_force hx) (by decide) (by decide)

/-- The flags of a recipe are no variables of the justfile. -/
theorem notMem_assigned : x.2.hasRun ∉ s.assigned ∧ x.2.force ∉ s.assigned := by
  have hvalues : ∀ v ∈ s.assigned, v.toList.take 3 = "VAR".toList := by
    intro v hv
    obtain ⟨a, ha, rfl⟩ := List.mem_map.1 hv
    obtain ⟨e, he, hfind, -⟩ := exists_left_of_mem h.script.assignments a ha
    exact h.settled.head hfind (by decide) (by decide)
  refine ⟨fun hmem => ?_, fun hmem => ?_⟩
  · exact absurd ((hvalues _ hmem).symm.trans (h.hasRun_head hx)) (by decide)
  · exact absurd ((hvalues _ hmem).symm.trans (h.force_head hx)) (by decide)

theorem notMem_fixedTexts {t : String} (ht : t ∈ Script.fixedTexts) : x.2.force ∉ Script.assignedIn t ∧
    (x.2.hasRun ∈ Script.assignedIn t → x.2.hasRun = Script.assignedFlag) := by
  have hharmless := Script.harmless_fixedTexts t ht
  refine ⟨fun hmem => ?_, fun hmem => ?_⟩
  · have hforeign := hharmless.isForeign hmem
    rw [Script.isForeign_of_force (h.force_head hx)] at hforeign
    cases hforeign
  · exact String.toList_injective (Script.eq_of_isForeign (h.hasRun_head hx) (hharmless.isForeign hmem))

theorem hasRun_eq_assignedFlag_iff :
    x.2.hasRun = Script.assignedFlag ↔ u.find? Script.assignedFlag = some ("HAS_RUN_" ++ x.1.2.name) := by
  refine ⟨fun heq => ?_, fun hfind => ?_⟩
  · rw [← heq]
    exact h.find?_hasRun hx
  · exact (h.settled.eq_iff (h.find?_hasRun hx) hfind).2 rfl

theorem hasRun_ne_assignedFlag (hname : dashless x.1.2.name ≠ "assign_variables") :
    x.2.hasRun ≠ Script.assignedFlag := by
  intro heq
  obtain ⟨k, hk⟩ := h.settled.eq_candidate (h.find?_hasRun hx)
  rw [heq] at hk
  have hform := dashless_eq_of_candidate hk
  rw [dashless_append] at hform
  exact hname ((String.append_right_inj "HAS_RUN_").1 hform)

theorem hasRun_eq_assignedFlag_or (hname : dashless x.1.2.name = "assign_variables") :
    x.2.hasRun = Script.assignedFlag ∨ ∃ m, u.find? Script.assignedFlag = some m ∧ m ≠ "HAS_RUN_" ++ x.1.2.name ∧
      dashless m = Script.assignedFlag ∧ Asked items p m := by
  have hform : dashless ("HAS_RUN_" ++ x.1.2.name) = Script.assignedFlag := by
    rw [dashless_append, hname]
    rfl
  by_cases htaken : ∃ m, u.find? Script.assignedFlag = some m ∧ m ≠ "HAS_RUN_" ++ x.1.2.name
  · obtain ⟨m, hm, hne⟩ := htaken
    obtain ⟨k, hk⟩ := h.settled.eq_candidate hm
    exact .inr ⟨m, hm, hne, dashless_eq_of_candidate hk, h.asked m ⟨_, hm⟩⟩
  · refine .inl ?_
    rw [← hform]
    refine (h.settled.eq_dashless_iff (h.find?_hasRun hx)).2 fun m hm => ?_
    by_contra hne
    rw [hform] at hm
    exact htaken ⟨m, hm, hne⟩

include hy

theorem hasRun_ne_force : x.2.hasRun ≠ y.2.force := by
  intro heq
  have hhead := h.hasRun_head hx
  rw [heq, h.force_head hy] at hhead
  exact absurd hhead (by decide)

theorem hasRun_eq_iff : x.2.hasRun = y.2.hasRun ↔ x.1.2.name = y.1.2.name :=
  (h.settled.eq_iff (h.find?_hasRun hx) (h.find?_hasRun hy)).trans (String.append_right_inj "HAS_RUN_")

theorem force_eq_iff : x.2.force = y.2.force ↔ x.1.2.name = y.1.2.name :=
  (h.settled.eq_iff (h.find?_force hx) (h.find?_force hy)).trans (String.append_right_inj "FORCE_")

/-- Only the functions of a recipe say that it has run. -/
theorem hasRun_mem_sets_iff : x.2.hasRun ∈ y.2.sets ↔ x.1.2.name = y.1.2.name := by
  refine ⟨fun hmem => ?_, fun hname => ?_⟩
  · rcases h.sets_head hy hmem with hhead | ⟨d, hd, hfind⟩ | heq
    · rw [h.hasRun_head hx] at hhead
      exact absurd hhead (by decide)
    · have hhead := h.settled.head hfind (by decide) (by decide)
      rw [h.hasRun_head hx] at hhead
      exact absurd hhead (by decide)
    · exact (h.hasRun_eq_iff hx hy).1 heq
  · rw [(h.hasRun_eq_iff hx hy).2 hname]
    exact List.mem_append_right _ List.mem_cons_self

/-- Only what depends on a recipe forces it. -/
theorem dependency_of_force_mem_sets (hmem : x.2.force ∈ y.2.sets) :
    ∃ d ∈ y.1.2.before ++ y.1.2.after, d.name = x.1.2.name := by
  rcases h.sets_head hy hmem with hhead | ⟨d, hd, hfind⟩ | heq
  · rw [h.force_head hx] at hhead
    exact absurd hhead (by decide)
  · exact ⟨d, hd, (String.append_right_inj "FORCE_").1 ((h.settled.eq_iff hfind (h.find?_force hx)).1 rfl)⟩
  · exact absurd heq.symm (h.hasRun_ne_force hy hx)

omit hx hy

theorem flagOwners : s.FlagOwners items p u where
  flags := h.functions.imp fun _ _ hof => ⟨hof.hasRun, hof.force⟩
  recipes _ hx _ hy := ⟨h.hasRun_eq_iff hx hy, h.force_eq_iff hx hy, h.hasRun_ne_force hx hy⟩
  functions _ hx _ hy := ⟨h.hasRun_mem_sets_iff hx hy, h.dependency_of_force_mem_sets hx hy⟩
  values _ hx := h.notMem_assigned hx
  fixed _ hx _ ht := h.notMem_fixedTexts hx ht
  assigns := Script.assignedFlag_mem_assignText _
  shared _ hx := h.hasRun_eq_assignedFlag_iff hx
  apart _ hx := h.hasRun_ne_assignedFlag hx
  taken _ hx := h.hasRun_eq_assignedFlag_or hx

end Made

/-- **Recipes of different names have different flags, but one can share that of the script.** -/
theorem flag_owners {edition : Edition} {outfile text script : String} {items : List Item}
    (hparse : parse text = .ok items) (hscript : (compile edition outfile text).script = .ok script) :
    ∃ p s, (Program.ofItems items).result .empty = .ok p ∧
      (Script.ofProgram edition outfile text p).result ((Program.ofItems items).table .empty) = .ok s ∧
      s.text = script ∧ s.FlagOwners items p (namesAfter edition outfile text items p) := by
  obtain ⟨p, s, hp, hs, htext, hmade⟩ := made_of_compile hparse hscript
  exact ⟨p, s, hp, hs, htext, hmade.flagOwners⟩

/-- A recipe with the name of the function that assigns variables, and one that depends on it. -/
def sharedFlagText : String :=
  "assign_variables:\n  echo\nrun: assign_variables\n  echo\n"

def sharedFlagItems : List Item :=
  [⟨[], .recipe {
      echo := true
      name := "assign_variables"
      parameters := []
      variadic := none
      before := []
      after := []
      body := [⟨none, [.text "echo"]⟩] }⟩,
    ⟨[], .recipe {
      echo := true
      name := "run"
      parameters := []
      variadic := none
      before := [⟨"assign_variables", []⟩]
      after := []
      body := [⟨none, [.text "echo"]⟩] }⟩]

/-- The two flags of an entry. -/
def Script.Entry.flags : Entry → List (String × String)
  | .recipe f => [(f.hasRun, f.force)]
  | _ => []

/-- The first recipe has the flag that the function for variables sets. -/
theorem flag_owners_shared :
    parse sharedFlagText = .ok sharedFlagItems ∧
      ∃ script p, ∃ s : Script,
        (compile ⟨"2000-01-02", "unknown"⟩ "just.sh" sharedFlagText).script = .ok script ∧ s.text = script ∧
        s.FlagOwners sharedFlagItems p
          (namesAfter ⟨"2000-01-02", "unknown"⟩ "just.sh" sharedFlagText sharedFlagItems p) ∧
        s.entries.flatMap Script.Entry.flags =
          [(Script.assignedFlag, "FORCE_assign_variables"), ("HAS_RUN_run", "FORCE_run")] := by
  have hparse : parse sharedFlagText = .ok sharedFlagItems := by decide +kernel
  have hflags : ((Program.ofItems sharedFlagItems).result .empty).toOption.map (fun p =>
      ((Script.entriesOf p).result ((p.values.entries.mapM fun x => Script.assignmentOf x.1 x.2).table
        ((Program.ofItems sharedFlagItems).table .empty))).toOption.map fun entries =>
          entries.flatMap Script.Entry.flags) = some (some
        [(Script.assignedFlag, "FORCE_assign_variables"), ("HAS_RUN_run", "FORCE_run")]) := by
    decide +kernel
  obtain ⟨script, hscript⟩ := compile_succeeds isDate_sample hparse rfl (by decide +kernel) rfl
  obtain ⟨p, s, hp, hs, htext, howners⟩ := flag_owners hparse hscript
  rw [hp] at hflags
  simp only [Except.toOption, Option.map_some, (Script.assembled_of_ofProgram hs).entries, Option.some.injEq] at hflags
  exact ⟨hparse, script, p, s, hscript, htext, howners, hflags⟩

end Justfile
