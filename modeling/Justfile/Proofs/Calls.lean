import Justfile.Proofs.Positional
import Justfile.Script.Entry

/-!
# Who calls with which arguments

The functions of recipes are called from four places: the case of a target in the loop over the command line,
the call of the default recipe, the function of an alias, and the function that chooses among platforms. For
each of them: its commands, that these are what is written for it, and what they do.

* `TargetCase`: the function gets all that is left of the command line, of which the case then drops its part.
* `Default`: the function gets all that is left, if there is enough.
* `AliasFunction`: the target gets the same arguments.
* `Dispatcher`: the function for the present platform gets no arguments.
-/

namespace Justfile.Script

open Shell

variable (w : World)

/-- Assigns the variables of the justfile; a failure ends the script. -/
def assignCommand : Command :=
  .plain "assign_variables || exit \"${?}\""

namespace Consumption

/-- The commands that drop the arguments of a target. -/
def statements : Consumption → List Statement
  | .all => [.one .leave]
  | .some count => [dropping count true]
  | .none => []

/-- What is left of the arguments after a target, and whether the loop goes on. -/
def left (args : List String) : Consumption → List String × Flow
  | .all => (args, .left)
  | .some count => (args.drop count, .next)
  | .none => (args, .next)

theorem text_eq (c : Consumption) :
    "    " ++ (c.text ++ ";;") = lines (c.statements.map (Statement.text "    ") ++ ["    ;;"]) := by
  cases c with
  | all => rfl
  | some count =>
    -- the pieces of the text that one line of the script puts together
    have hif := append_merge (show "    " ++ "if [ \"${#}\" -ge \"" = "    if [ \"${#}\" -ge \"" from rfl)
    have hquote := append_merge (show "[ \"${#}\" -ge " ++ "\"" = "[ \"${#}\" -ge \"" from rfl)
    have hword := append_merge (show "    if " ++ "[ \"${#}\" -ge \"" = "    if [ \"${#}\" -ge \"" from rfl)
    have hshift := append_merge (show "      " ++ "shift " = "      shift " from rfl)
    have hthen := append_merge (show "\" ]; then\n" ++ "      shift " = "\" ]; then\n      shift " from rfl)
    unfold text statements dropping
    simp [String.append_assoc, hif, hquote, hword, hshift, hthen]
  | none => rfl

theorem run_eq (c : Consumption) (r : Frame) :
    runBlock w r c.statements = ({ r with args := (c.left r.args).1 }, (c.left r.args).2) := by
  cases c with
  | all => rfl
  | some count =>
    rw [statements, runBlock, inOrder, run_dropping]
    rfl
  | none => rfl

end Consumption

namespace TargetCase

/-- The commands of a target's case that do not depend on its parameters. -/
def common (c : TargetCase) : List Statement :=
  [.one .shift, .one assignCommand, .one (.call c.function true), .one (.plain "RUN_DEFAULT='false'")]

/-- The commands of a target's case. -/
def statements (c : TargetCase) : List Statement :=
  c.common ++ c.consumption.statements

/-- **What is written for a case are its commands.** -/
theorem text_eq (c : TargetCase) :
    c.text = c.target ++ ")\n" ++ lines (c.statements.map (Statement.text "    ") ++ ["    ;;"]) := by
  have hcommon : lines (c.common.map (Statement.text "    ")) =
      "    shift\n    assign_variables || exit \"${?}\"\n    " ++ (c.function ++
        " \"$@\"\n    RUN_DEFAULT='false'") := by
    have hshift := append_merge (show "    shift\n" ++ "    assign_variables || exit \"${?}\"\n" =
      "    shift\n    assign_variables || exit \"${?}\"\n" from rfl)
    have hassign := append_merge (show "    shift\n    assign_variables || exit \"${?}\"\n" ++ "    " =
      "    shift\n    assign_variables || exit \"${?}\"\n    " from rfl)
    simp [common, assignCommand, String.append_assoc, hshift, hassign]
  have hstart := append_merge (show ")\n" ++ "    shift\n    assign_variables || exit \"${?}\"\n    " =
    ")\n    shift\n    assign_variables || exit \"${?}\"\n    " from rfl)
  have hend := append_merge (show " \"$@\"\n    RUN_DEFAULT='false'" ++ "\n" =
    " \"$@\"\n    RUN_DEFAULT='false'\n" from rfl)
  have hindent := append_merge (show " \"$@\"\n    RUN_DEFAULT='false'\n" ++ "    " =
    " \"$@\"\n    RUN_DEFAULT='false'\n    " from rfl)
  unfold statements
  rw [List.map_append, List.append_assoc, lines_append (by simp [common]) (by simp), hcommon,
    ← Consumption.text_eq]
  unfold text
  simp only [String.append_assoc, hstart, hend, hindent]

/-- **The function of a target gets all that is left of the command line.** -/
theorem run_eq (c : TargetCase) (r : Frame) {target : String} {args : List String} (h : r.args = target :: args) :
    runBlock w r c.statements =
      (⟨(c.consumption.left args).1, r.assigned, r.calls ++ [(c.function, args)]⟩, (c.consumption.left args).2) := by
  have hcall : runBlock w r c.common = (⟨args, r.assigned, r.calls ++ [(c.function, args)]⟩, .next) := by
    simp [common, runBlock, assignCommand, h]
  have hrest := c.consumption.run_eq w ⟨args, r.assigned, r.calls ++ [(c.function, args)]⟩
  rw [runBlock] at hrest ⊢
  rw [statements, inOrder_append_next hcall, hrest]

end TargetCase

namespace Default

/-- The message of the default recipe that it needs arguments. -/
def message (recipe : String) (least : Nat) : String :=
  "echo_error 'Recipe `" ++ recipe ++ "` cannot be used as default recipe since it requires at least " ++
    toString least ++ " argument" ++ (if least = 1 then "" else "s") ++ ".'"

/-- The commands that run the default recipe. -/
def statements (d : Default) : List Statement :=
  (d.least.map fun n => .choose (.fewer n true, [.plain (message d.recipe n), .exit]) [] []).toList ++
    [.one assignCommand, .one (.call d.function true)]

/-- **What is written for the default recipe are its commands**, with a blank at the end. -/
theorem text_eq (d : Default) : "  " ++ d.text = blockText "  " d.statements ++ " " := by
  have hindent := append_merge (show "  " ++ "assign_variables || exit \"${?}\"\n  " =
    "  assign_variables || exit \"${?}\"\n  " from rfl)
  have hassign := append_merge (show "  assign_variables || exit \"${?}\"\n" ++ "  " =
    "  assign_variables || exit \"${?}\"\n  " from rfl)
  unfold text statements blockText
  cases d.least with
  | none =>
    simp [assignCommand, String.append_assoc, hindent, hassign]
  | some n =>
    have hif := append_merge (show "  " ++ "if [ \"${#}\" -lt \"" = "  if [ \"${#}\" -lt \"" from rfl)
    have hquote := append_merge (show "[ \"${#}\" -lt " ++ "\"" = "[ \"${#}\" -lt \"" from rfl)
    have hword := append_merge (show "  if " ++ "[ \"${#}\" -lt \"" = "  if [ \"${#}\" -lt \"" from rfl)
    have hecho := append_merge (show "    " ++ "echo_error 'Recipe `" = "    echo_error 'Recipe `" from rfl)
    have hthen := append_merge (show "\" ]; then\n" ++ "    echo_error 'Recipe `" =
      "\" ]; then\n    echo_error 'Recipe `" from rfl)
    have hfi := append_merge (show ".'\n    exit 1\n  fi\n" ++ "  assign_variables || exit \"${?}\"\n  " =
      ".'\n    exit 1\n  fi\n  assign_variables || exit \"${?}\"\n  " from rfl)
    unfold checkText message
    simp [assignCommand, String.append_assoc, hassign, hif, hquote, hword, hecho, hthen, hfi]

/-- **The default recipe is called if there are enough arguments.** -/
theorem run_eq (d : Default) (r : Frame) :
    runBlock w r d.statements =
      if r.args.length < d.least.getD 0 then (r, .ended)
      else ({ r with calls := r.calls ++ [(d.function, r.args)] }, .next) := by
  cases hd : d.least with
  | none => simp [statements, hd, runBlock, assignCommand]
  | some n =>
    by_cases hlt : r.args.length < n
    · simp [statements, hd, runBlock, hlt]
    · simp [statements, hd, runBlock, assignCommand, hlt]

end Default

namespace AliasFunction

/-- The commands of an alias. -/
def statements (f : AliasFunction) : List Statement :=
  [.one (.call f.target true)]

theorem text_eq (f : AliasFunction) : f.text = define f.name (blockText "  " f.statements ++ "\n") := by
  simp [text, statements, blockText, String.append_assoc]

/-- **The target of an alias gets the arguments of the alias.** -/
theorem run_eq (f : AliasFunction) (args : List String) :
    runBlock w (.start args) f.statements = (⟨args, [], [(f.target, args)]⟩, .next) := by
  rfl

end AliasFunction

namespace Dispatcher

/-- The condition and the command of a branch. -/
def choice (b : Branch) : Condition × List Command :=
  (.answers b.detector b.platform, [.call b.function false])

/-- What is said on a platform that has no recipe. -/
def message (recipe : String) : String :=
  "echo_error \"Justfile does not contain recipe \"'`" ++ recipe ++ "`.'"

/-- The commands of a dispatcher. -/
def statements (d : Dispatcher) : List Statement :=
  match d.branches with
  | [] => []
  | b :: rest => [.choose (choice b) (rest.map choice) [.plain (message d.recipe)]]

theorem text_choice (b : Branch) (word : String) : b.text word = branchText "  " word (choice b) := by
  have hopen := append_merge (show " " ++ "[ \"$(" = " [ \"$(" from rfl)
  have hthen := append_merge (show "' ]; then\n" ++ "    " = "' ]; then\n    " from rfl)
  unfold Branch.text choice branchText
  simp [String.append_assoc, hopen, hthen]

/-- **What is written for a dispatcher are its commands.** -/
theorem text_eq (d : Dispatcher) (h : d.branches ≠ []) :
    d.text = define d.name (blockText "  " d.statements ++ "\n") := by
  have hecho := append_merge (show "    " ++ "echo_error \"Justfile does not contain recipe \"'`" =
    "    echo_error \"Justfile does not contain recipe \"'`" from rfl)
  have helse := append_merge (show "\n  else\n" ++ "    echo_error \"Justfile does not contain recipe \"'`" =
    "\n  else\n    echo_error \"Justfile does not contain recipe \"'`" from rfl)
  obtain ⟨b, rest, hb⟩ := List.exists_cons_of_ne_nil h
  unfold text statements blockText message
  rw [hb]
  simp [text_choice, String.append_assoc, hecho, helse, Function.comp_def]

/-- The branch for the present platform. -/
def present (d : Dispatcher) : Option Branch :=
  d.branches.find? fun b => w.output b.detector == b.platform

theorem chosen_choices (args : List String) (otherwise : List Command) (branches : List Branch) :
    chosen w args otherwise (branches.map choice) =
      ((branches.find? fun b => w.output b.detector == b.platform).map fun b => [Command.call b.function false]).getD
        otherwise := by
  induction branches with
  | nil => rfl
  | cons b rest ih =>
    rw [List.map_cons, chosen, List.find?_cons]
    cases hb : w.output b.detector == b.platform with
    | true => simp [choice, hb]
    | false => simp [choice, hb, ← ih]

/-- **The function for the present platform gets no arguments.** -/
theorem run_eq (d : Dispatcher) (args : List String) :
    runBlock w (.start args) d.statements =
      (⟨args, [], ((d.present w).map fun b => (b.function, [])).toList⟩, .next) := by
  unfold statements present
  cases d.branches with
  | nil => rfl
  | cons b rest =>
    have hchosen := chosen_choices w args [.plain (message d.recipe)] (b :: rest)
    rw [List.map_cons] at hchosen
    simp only [runBlock, inOrder, Statement.run, Frame.start, hchosen]
    cases (b :: rest).find? fun b => w.output b.detector == b.platform with
    | none => rfl
    | some b => rfl

end Dispatcher

end Justfile.Script
