import Justfile.Proofs.Scripts

/-!
# Why a justfile has no script

A justfile is refused while it is read, or for its settings, its functions or its recipes. If it
passes all that it has a script, because what is read from a justfile is formed.

* `Failure.Documented`: the failures that a justfile can cause.
* `Program.ofItems_documented`: what items are refused for.
* `Program.ofItems_eq_ok_iff`: when items make a program.
* `compile_outcome`: all failures of a justfile are documented, and when it has a script.
-/

namespace Justfile

open Shell

/-- The failures that a justfile can cause. -/
def Failure.Documented : Failure → Prop
  | .unreadable _ _ => True
  | .variadicNeedsDefault _ => True
  | .settingRepeated _ => True
  | .windowsUnsupported => True
  | .shellTooShort => True
  | .unknownFunction _ => True
  | .recipeRepeated => True
  | .notAnExpression _ => False
  | .notWritable _ => False
  | .testNotWritable => False
  | .testNotComparison => False
  | .badQuote => False
  | .lineTooLong _ _ => False

variable {text : String} {items : List Item} {f : Failure}

theorem parse_documented (h : parse text = .error f) : f.Documented := by
  rcases parse_cases text with ⟨items, next, far, -, hok⟩ | ⟨row, column, herror⟩ | ⟨recipe, herror⟩
  · cases hok.symm.trans h
  · cases herror.symm.trans h
    exact True.intro
  · cases herror.symm.trans h
    exact True.intro

namespace Program

/-- **What items are refused for.** -/
theorem ofItems_documented (hnamed : ∀ i ∈ items, ∀ e ∈ i.declaration.exprs, e.Named)
    (h : (ofItems items).result .empty = .error f) : f.Documented := by
  cases hs : Settings.ofItems items with
  | error g =>
    have hset : (Naming.ofExcept (Settings.ofItems items)).result .empty = .error g := hs
    obtain rfl : g = f := Except.error.inj ((Naming.bind_of_error _ hset).2.symm.trans h)
    rcases Settings.ofItems_error hs with ⟨_, rfl⟩ | rfl | rfl <;> exact True.intro
  | ok s =>
    -- functions are looked up before recipes are compared
    have hsteps := (ofItems_result hs).2
    have houtcome := Helpers.ofItems_outcome hnamed (Helpers.settled_ofItems hnamed) (.refl _)
    cases hr : (Helpers.ofItems items).result .empty with
    | error g =>
      rw [hr] at hsteps houtcome
      obtain rfl : g = f := Except.error.inj (hsteps.symm.trans h)
      obtain ⟨_, -, -, rfl⟩ := houtcome
      exact True.intro
    | ok helpers =>
      rw [hr] at hsteps
      simp only at hsteps
      split at hsteps
      · rename_i g hc
        obtain rfl : g = f := Except.error.inj (hsteps.symm.trans h)
        rw [collectRecipes_error hc]
        exact True.intro
      · obtain ⟨p, hp, -⟩ := hsteps
        rw [hp] at h
        cases h

/-- **When items make a program**: their settings stand, the functions of their open nodes are known,
and their recipes are not repeated. -/
theorem ofItems_eq_ok_iff (hnamed : ∀ i ∈ items, ∀ e ∈ i.declaration.exprs, e.Named) :
    (∃ p, (ofItems items).result .empty = .ok p) ↔ ∃ settings recipes,
      Settings.ofItems items = .ok settings ∧
      (∀ e ∈ openExprNodes items, ∀ g, e.function? = some g → Builtin.find? g ≠ none) ∧
      collectRecipes (settings.isGiven "allow-duplicate-recipes") [] items = .ok recipes := by
  constructor
  · rintro ⟨p, hp⟩
    have hprogram := assembled_of_ofItems hp
    refine ⟨p.settings, p.recipes, hprogram.settings, fun e he g hg hnone => ?_, hprogram.recipes⟩
    obtain ⟨f, hf⟩ := (ofItems_eq_unknownFunction_iff hnamed).2 ⟨⟨_, hprogram.settings⟩, e, he, g, hg, hnone⟩
    rw [hp] at hf
    cases hf
  · rintro ⟨settings, recipes, hs, hknown, hrecipes⟩
    have hsteps := (ofItems_result hs).2
    have houtcome := Helpers.ofItems_outcome hnamed (Helpers.settled_ofItems hnamed) (.refl _)
    cases hr : (Helpers.ofItems items).result .empty with
    | error g =>
      rw [hr] at houtcome
      obtain ⟨name, -, -, rfl⟩ := houtcome
      obtain ⟨e, he, name', hname, hnone⟩ := (Helpers.ofItems_error_iff hnamed).1 ⟨name, hr⟩
      exact absurd hnone (hknown e he name' hname)
    | ok helpers =>
      rw [hr, hrecipes] at hsteps
      obtain ⟨p, hp, -⟩ := hsteps
      exact ⟨p, hp⟩

end Program

/-- **How compiling a justfile ends.** Every failure is one of those that a justfile can cause. There is
a script just if the justfile can be read, its settings stand, the functions it calls outside the
arguments of other calls are known, and its recipes are not repeated. -/
theorem compile_outcome (date text : String) (h : IsDate date) :
    (∀ f, (compile ⟨date, "unknown"⟩ "just.sh" text).script = .error f → f.Documented) ∧
    ((∃ script, (compile ⟨date, "unknown"⟩ "just.sh" text).script = .ok script) ↔
      ∃ items settings recipes, parse text = .ok items ∧ Settings.ofItems items = .ok settings ∧
        (∀ e ∈ openExprNodes items, ∀ g, e.function? = some g → Builtin.find? g ≠ none) ∧
        Program.collectRecipes (settings.isGiven "allow-duplicate-recipes") [] items = .ok recipes) := by
  cases hparse : parse text with
  | error g =>
    have hscript : (compile ⟨date, "unknown"⟩ "just.sh" text).script = .error g := by
      unfold compile
      rw [hparse]
    rw [hscript]
    refine ⟨fun f hf => ?_, fun ⟨_, hs⟩ => (by cases hs), fun ⟨_, _, _, hok, _⟩ => (by cases hok)⟩
    obtain rfl : g = f := Except.error.inj hf
    exact parse_documented hparse
  | ok items =>
    have hformed := parse_shaped Parsing.grammatical_formed hparse
    have hnamed := parse_named hparse
    have hcompile : compile ⟨date, "unknown"⟩ "just.sh" text = compileItems ⟨date, "unknown"⟩ "just.sh" text items :=
      compile_eq_compileItems hparse
    -- a program that is made from a justfile always has a script
    have hscript : ∀ p, (Program.ofItems items).result .empty = .ok p →
        ∃ script, (compile ⟨date, "unknown"⟩ "just.sh" text).script = .ok script := by
      intro p hp
      obtain ⟨s, hs⟩ := Script.ofProgram_succeeds text (Program.formed_of_ofItems hformed hp)
        (Script.bannerText_fits h) ((Program.ofItems items).table .empty)
      exact ⟨s.text, hcompile ▸ (compileItems_eq_ok_iff hp).2 ⟨s, hs, rfl⟩⟩
    have hiff := Program.ofItems_eq_ok_iff hnamed
    cases hp : (Program.ofItems items).result .empty with
    | error g =>
      have herror : (compile ⟨date, "unknown"⟩ "just.sh" text).script = .error g :=
        hcompile ▸ compileItems_of_error hp
      rw [herror]
      refine ⟨fun f hf => ?_, fun ⟨_, hs⟩ => (by cases hs), ?_⟩
      · obtain rfl : g = f := Except.error.inj hf
        exact Program.ofItems_documented hnamed hp
      · rintro ⟨items', settings, recipes, hitems, hrest⟩
        cases hitems
        obtain ⟨p, hok⟩ := hiff.2 ⟨settings, recipes, hrest⟩
        rw [hp] at hok
        cases hok
    | ok p =>
      obtain ⟨script, hok⟩ := hscript p hp
      rw [hok]
      refine ⟨fun f hf => (by cases hf), fun _ => ?_, fun _ => ⟨script, rfl⟩⟩
      obtain ⟨settings, recipes, hrest⟩ := hiff.1 ⟨p, hp⟩
      exact ⟨items, settings, recipes, rfl, hrest⟩

/-- A justfile with a setting, a conditional, a recipe for one platform and its dependent. -/
def soundText : String :=
  "set shell := [\"bash\", \"-c\"]\nx := if os() == 'linux' \x7b `pwd` \x7d else \x7b 'y' \x7d\n" ++
  "[linux]\nbuild $a *b=x:\n  @echo \x7b\x7b a / b \x7d\x7d\nrun: (build uppercase(x))\n"

def soundItems : List Item :=
  [⟨[], .setting "shell" (.words ["bash", "-c"])⟩,
    ⟨[], .assignment "x" (.cond .equal (.call "os" []) (.text "linux") (.backtick "pwd") (.text "y"))⟩,
    ⟨["linux"], .recipe {
      echo := true
      name := "build"
      parameters := [⟨true, "a", none⟩]
      variadic := some ⟨.star, ⟨false, "b", some (.var "x")⟩⟩
      before := []
      after := []
      body := [⟨some "@", [.text "echo ", .interpolation (.path (.var "a") (.var "b"))]⟩] }⟩,
    ⟨[], .recipe {
      echo := true
      name := "run"
      parameters := []
      variadic := none
      before := [⟨"build", [.call "uppercase" [.var "x"]]⟩]
      after := []
      body := [] }⟩]

theorem compile_outcome_samples :
    IsDate "2000-01-02" ∧
      (∃ script, (compile ⟨"2000-01-02", "unknown"⟩ "just.sh" soundText).script = .ok script) ∧
      ∃ f, (compile ⟨"2000-01-02", "unknown"⟩ "just.sh" mixedText).script = .error f ∧ f.Documented := by
  refine ⟨isDate_sample, ?_, ?_⟩
  · have hparse : parse soundText = .ok soundItems := by decide +kernel
    have hknown : (openExprNodes soundItems).all (fun e => e.function?.all fun g => (Builtin.find? g).isSome) =
        true := by decide +kernel
    refine (compile_outcome "2000-01-02" soundText isDate_sample).2.2
      ⟨soundItems, _, _, hparse, rfl, fun e he g hg hnone => ?_, rfl⟩
    have hsome := List.all_eq_true.1 hknown e he
    rw [hg, Option.all_some, hnone] at hsome
    cases hsome
  · obtain ⟨hdocumented, hiff⟩ := compile_outcome "2000-01-02" mixedText isDate_sample
    cases hscript : (compile ⟨"2000-01-02", "unknown"⟩ "just.sh" mixedText).script with
    | error f => exact ⟨f, rfl, hdocumented f hscript⟩
    | ok script =>
      obtain ⟨items, _, _, hitems, -, hknown, -⟩ := hiff.1 ⟨script, hscript⟩
      obtain rfl : mixedItems = items := Except.ok.inj (parse_mixedText.symm.trans hitems)
      have hmem : Expr.call "f" [.text "z", .var "x"] ∈ openExprNodes mixedItems := by decide +kernel
      exact absurd rfl (hknown _ hmem "f" rfl)

end Justfile
