import Justfile.Proofs.Positional
import Justfile.Script.Basic

/-!
# Where the parts of a script stand

Much is said about a script by its parts: the functions in the section of recipes, the cases of targets, the
variables that are assigned. It holds of the script since all of them are written, each at its place.

* `Layout`: the places of assignments, entries, cases and the default in a text. `Script.layout`: these are their
  places in the text of a script.
* `RecipeFunction.text_intake`, `RecipeFunction.text_body`: the places of the intake and of the body in a function.
-/

namespace Justfile.Script

open Shell

/-- **The places of the parts of a script in a text.** All entries stand under the heading of recipes, up to the next
heading. The cases of targets are the first ones of the loop over the command line. -/
structure Layout (s : Script) (text : String) : Prop where
  assignments : ∃ before after, text = before ++ ("assign_variables() \x7b\n" ++
    "  test -z \"${HAS_RUN_assign_variables:-}\" || return 0\n\n" ++
    (if s.assignments.isEmpty then "  # No user-declared variables" else lines (s.assignments.map Assignment.text)) ++
    "\n\n  HAS_RUN_assign_variables=\"true\"\n\x7d") ++ after
  entries : ∃ before after, text = before ++ (Text.heading "Recipes" ++ "\n\n" ++
    "\n\n".intercalate (s.entries.map Entry.text) ++ "\n\n\n" ++ Text.heading "Helper functions") ++ after
  loop : ∃ before after, text = before ++ ("while [ \"${#}\" -gt 0 ]; do\n  case \"${1}\" in \n  \n" ++
    "  # User-defined recipes\n  " ++ "\n\n  ".intercalate (s.cases.map TargetCase.text) ++ firstOptions) ++ after
  default : ∃ before after, text = before ++ (lastOptions ++ s.default.elim noDefaultText Default.text ++ "\nfi") ++
    after

section Sections

variable (s : Script)

/-- The sections of a script. -/
theorem text_sections : ∃ opening closing, s.text = opening ++ s.variableText ++ "\n\n" ++ s.recipeText ++ "\n\n" ++
    s.commonText ++ "\n\n\n" ++ Text.heading "Main entrypoint" ++ "\n\n" ++ entryText s.version s.cases s.default ++
    closing := by
  refine ⟨"#!/bin/sh\n\n" ++ s.banner ++ "\n\n" ++ strictText ++ s.helperText ++ "\n\n", ?_⟩
  unfold text
  simp only [String.append_assoc]
  exact ⟨_, rfl⟩

/-- **A script has its parts at their places.** -/
theorem layout : s.Layout s.text := by
  obtain ⟨opening, closing, htext⟩ := s.text_sections
  have hfeed := append_merge (show "\n\n" ++ "\n" = "\n\n\n" from rfl)
  have hstart : loopStart = "RUN_DEFAULT='true'\n" ++ ("while [ \"${#}\" -gt 0 ]; do\n  case \"${1}\" in \n  \n" ++
      "  # User-defined recipes\n  ") := rfl
  rw [htext]
  refine ⟨?_, ?_, ?_, ?_⟩
  · refine ⟨opening ++ Text.heading "Variables" ++ "\n" ++ (if s.dotenv then dotenvText else "") ++
      "\n# User-overwritable variables (via CLI)\n" ++ tempdirText s.tempdir ++ optionText s.shell s.shellArgs ++
      "\n" ++ colourText ++ "\n", ?_⟩
    unfold variableText assignText define
    simp only [String.append_assoc]
    exact ⟨_, rfl⟩
  · refine ⟨opening ++ s.variableText ++ "\n\n\n", ?_⟩
    unfold recipeText commonText
    simp only [String.append_assoc, hfeed]
    exact ⟨_, rfl⟩
  · refine ⟨opening ++ s.variableText ++ "\n\n" ++ s.recipeText ++ "\n\n" ++ s.commonText ++ "\n\n\n" ++
      Text.heading "Main entrypoint" ++ "\n\n" ++ "RUN_DEFAULT='true'\n", ?_⟩
    unfold entryText
    rw [hstart]
    simp only [String.append_assoc]
    exact ⟨_, rfl⟩
  · refine ⟨opening ++ s.variableText ++ "\n\n" ++ s.recipeText ++ "\n\n" ++ s.commonText ++ "\n\n\n" ++
      Text.heading "Main entrypoint" ++ "\n\n" ++ loopStart ++ "\n\n  ".intercalate (s.cases.map TargetCase.text) ++
      firstOptions ++ s.version, ?_⟩
    unfold entryText
    simp only [String.append_assoc]
    exact ⟨_, rfl⟩

end Sections

namespace RecipeFunction

variable (f : RecipeFunction)

/-- The start of a function: it returns at once if it has run and is not forced. -/
def setupText : String :=
  "  # Recipe setup and pre-recipe dependencies\n" ++
  "  test -z " ++ orEmpty f.hasRun ++ " \\\n" ++
  "    || test " ++ orEmpty f.force ++ " = \"true\" \\\n" ++
  "    || return 0"

/-- The intake of a function comes first. -/
theorem text_intake {i : Intake} (hi : f.intake = some i) :
    ∃ rest, f.text = define f.name (f.setupText ++ "\n\n" ++ i.text ++ "\n\n" ++ rest) := by
  have hmove : "\n\n  OLD_WD=\"$(pwd)\"\n  cd \"${INVOCATION_DIRECTORY}\"" =
      "\n\n" ++ "  OLD_WD=\"$(pwd)\"\n  cd \"${INVOCATION_DIRECTORY}\"" := rfl
  have hbody : "\n\n  # Recipe body\n" = "\n\n" ++ "  # Recipe body\n" := rfl
  unfold text setupText
  rw [hi, Option.elim_some, hmove, hbody]
  cases f.before.isEmpty with
  | false =>
    simp only [String.append_assoc, Bool.false_eq_true, if_false]
    exact ⟨_, rfl⟩
  | true =>
    cases f.changesDirectory with
    | false =>
      simp only [String.append_assoc, Bool.false_eq_true, if_false, if_true, String.empty_append]
      exact ⟨_, rfl⟩
    | true =>
      simp only [String.append_assoc, if_true, String.empty_append]
      exact ⟨_, rfl⟩

/-- The body of a function stands between two comments. -/
theorem text_body : ∃ setup teardown, f.text = define f.name (setup ++ "\n\n  # Recipe body\n" ++
    f.body.text f.recipe ++ "\n\n  # Post-recipe dependencies and teardown\n" ++ teardown) := by
  refine ⟨f.setupText ++ f.intake.elim "" (fun i => "\n\n" ++ i.text) ++
    (if f.before.isEmpty then "" else "\n\n" ++ lines (f.before.map (Run.beforeText f.force))) ++
    (if f.changesDirectory then "\n\n  OLD_WD=\"$(pwd)\"\n  cd \"${INVOCATION_DIRECTORY}\"" else ""), ?_⟩
  unfold text setupText
  simp only [String.append_assoc]
  exact ⟨_, rfl⟩

end RecipeFunction

end Justfile.Script
