import Justfile.Proofs.Positional

/-!
# How functions take their arguments

A recipe's function checks that it has enough arguments, and then takes them into variables: one for each
place, and the rest for a variadic parameter.

* `Intake.statements`: the commands of an intake. `Intake.text_eq`: these are what is written for it.
* `Intake.run_eq`: an intake ends the script if there are too few arguments, and else assigns the argument at
  each place.
-/

namespace Justfile.Script

open Shell

variable (w : World)

namespace Slot

/-- The commands of a parameter. -/
def statements (s : Slot) : List Statement :=
  .one (.take s.name s.place) ::
    (s.default.map fun value => .choose (.fewer s.place false, [.assign s.name value]) [] []).toList

theorem texts_eq (s : Slot) : s.texts = s.statements.map (Statement.text "  ") := by
  have hif := append_merge (show "  if " ++ "[ \"${#}\" -lt " = "  if [ \"${#}\" -lt " from rfl)
  have hthen := append_merge (show " ]; then\n" ++ "    " = " ]; then\n    " from rfl)
  cases hd : s.default with
  | none => simp [texts, statements, hd, String.append_assoc]
  | some value =>
    simp [texts, statements, hd, String.append_assoc, hif, hthen]

/-- The assignments of a parameter: the argument at its place, and its default if there is none. -/
def assigned (args : List String) (s : Slot) : List (String × String) :=
  (s.name, args.getD (s.place - 1) "") ::
    if args.length < s.place then (s.default.map fun value => (s.name, w.value value)).toList else []

theorem run_eq (s : Slot) (r : Frame) :
    runBlock w r s.statements = ({ r with assigned := r.assigned ++ s.assigned w r.args }, .next) := by
  cases hd : s.default with
  | none => simp [runBlock, statements, assigned, hd]
  | some value =>
    by_cases hlt : r.args.length < s.place
    · simp [runBlock, statements, assigned, hd, hlt]
    · simp [runBlock, statements, assigned, hd, hlt]

/-- Parameters one after the other. -/
theorem run_all (slots : List Slot) (r : Frame) :
    runBlock w r (slots.flatMap statements) =
      ({ r with assigned := r.assigned ++ slots.flatMap (assigned w r.args) }, .next) := by
  induction slots generalizing r with
  | nil => simp [runBlock]
  | cons s slots ih =>
    rw [List.flatMap_cons, runBlock, inOrder_append_next (run_eq w s r)]
    rw [runBlock] at ih
    rw [ih, List.flatMap_cons, List.append_assoc]

end Slot

namespace Remainder

/-- The commands of the parameter that takes the remaining arguments. -/
def statements (r : Remainder) : List Statement :=
  (if r.skipped = 0 then [] else [dropping r.skipped false]) ++
    (r.default.map fun value => .choose (.fewer 1 false, [.replace value]) [] []).toList ++
    [.one (.takeAll r.name)]

theorem text_dropping (count : Nat) : (dropping count false).text "  " = shiftText count := by
  have hif := append_merge (show "  if " ++ "[ \"${#}\" -ge " = "  if [ \"${#}\" -ge " from rfl)
  have hshift := append_merge (show "    " ++ "shift " = "    shift " from rfl)
  have hthen := append_merge (show " ]; then\n" ++ "    shift " = " ]; then\n    shift " from rfl)
  unfold dropping shiftText
  simp [String.append_assoc, hif, hshift, hthen]

theorem texts_eq (r : Remainder) : r.texts = r.statements.map (Statement.text "  ") := by
  have hset := append_merge (show "    " ++ "set -- " = "    set -- " from rfl)
  have hthen := append_merge (show " ]; then\n" ++ "    set -- " = " ]; then\n    set -- " from rfl)
  have hone := append_merge (show Nat.repr 1 ++ " ]; then\n    set -- " = "1 ]; then\n    set -- " from rfl)
  have hlt := append_merge (show "[ \"${#}\" -lt " ++ "1 ]; then\n    set -- " =
    "[ \"${#}\" -lt 1 ]; then\n    set -- " from rfl)
  have hif := append_merge (show "  if " ++ "[ \"${#}\" -lt 1 ]; then\n    set -- " =
    "  if [ \"${#}\" -lt 1 ]; then\n    set -- " from rfl)
  have hskip : (if r.skipped = 0 then [] else [shiftText r.skipped]) =
      (if r.skipped = 0 then [] else [dropping r.skipped false]).map (Statement.text "  ") := by
    split
    · rfl
    · rw [List.map_singleton, text_dropping]
  unfold texts statements
  rw [List.map_append, List.map_append, hskip]
  cases hd : r.default with
  | none => simp [String.append_assoc]
  | some value =>
    simp [String.append_assoc, hset, hthen, hone, hlt, hif]

/-- The arguments that are left for the parameter: those after the skipped ones, or its default. -/
def rest (args : List String) (r : Remainder) : List String :=
  let left := args.drop r.skipped
  match r.default with
  | some value => if left.isEmpty then [w.value value] else left
  | none => left

theorem run_eq (r : Remainder) (f : Frame) :
    runBlock w f r.statements =
      ({ f with args := r.rest w f.args, assigned := f.assigned ++ [(r.name, " ".intercalate (r.rest w f.args))] },
        .next) := by
  have hskip : runBlock w f (if r.skipped = 0 then [] else [dropping r.skipped false]) =
      ({ f with args := f.args.drop r.skipped }, .next) := by
    split
    · rename_i hzero
      rw [hzero]
      rfl
    · rw [runBlock, inOrder, run_dropping]
      rfl
  unfold statements
  rw [List.append_assoc, runBlock, inOrder_append_next hskip]
  cases hd : r.default with
  | none => simp [rest, hd]
  | some value =>
    cases hleft : f.args.drop r.skipped with
    | nil =>
      simp [rest, hd, hleft]
    | cons a left =>
      simp [rest, hd, hleft]

end Remainder

namespace Least

/-- What is said if there are too few arguments. -/
def message (l : Least) : String :=
  "(\n      echo_error 'Recipe `" ++ l.recipe ++ "`'\" got ${#} arguments but takes " ++
    (if l.orMore then "at least " else "") ++ toString l.count ++
    "\"\n      echo \"${BOLD}usage:${NOCOLOR}\"\n      echo \"    ${0} \"'" ++ l.recipe ++ " '" ++
    Label.join l.labels ++ "\n    ) >&2"

/-- The check that there are enough arguments. -/
def statement (l : Least) : Statement :=
  .choose (.fewer l.count false, [.plain l.message, .exit]) [] []

theorem text_eq (l : Least) : l.text = l.statement.text "  " ++ "\n" := by
  have hif := append_merge (show "  if " ++ "[ \"${#}\" -lt " = "  if [ \"${#}\" -lt " from rfl)
  have hopen := append_merge (show "    " ++ "(\n      echo_error 'Recipe `" =
    "    (\n      echo_error 'Recipe `" from rfl)
  have hthen := append_merge (show " ]; then\n" ++ "    (\n      echo_error 'Recipe `" =
    " ]; then\n    (\n      echo_error 'Recipe `" from rfl)
  unfold text statement message
  simp [String.append_assoc, hif, hopen, hthen]

theorem run_eq (l : Least) (f : Frame) :
    l.statement.run w f = (f, if f.args.length < l.count then .ended else .next) := by
  by_cases hlt : f.args.length < l.count
  · simp [statement, hlt]
  · simp [statement, hlt]

end Least

namespace Intake

/-- The commands of an intake. -/
def statements (i : Intake) : List Statement :=
  i.least.toList.map Least.statement ++
    (i.slots.flatMap Slot.statements ++ i.remainder.elim [] Remainder.statements)

/-- **What is written for an intake are its commands.** -/
theorem text_eq (i : Intake) (h : i.slots ≠ [] ∨ i.remainder ≠ none) :
    i.text = blockText "  " i.statements := by
  set body := i.slots.flatMap Slot.statements ++ i.remainder.elim [] Remainder.statements with hbody
  have htexts : i.slots.flatMap Slot.texts ++ i.remainder.elim [] Remainder.texts =
      body.map (Statement.text "  ") := by
    rw [hbody, List.map_append, List.map_flatMap]
    congr 1
    · exact List.flatMap_congr fun s _ => Slot.texts_eq s
    · cases i.remainder with
      | none => rfl
      | some r => exact Remainder.texts_eq r
  -- the check ends with a line end of its own, so something has to follow it
  have hsome : body.map (Statement.text "  ") ≠ [] := by
    rw [Ne, List.map_eq_nil_iff, hbody, List.append_eq_nil_iff]
    rintro ⟨hslots, hrest⟩
    rcases h with h | h
    · obtain ⟨s, slots, hs⟩ := List.exists_cons_of_ne_nil h
      rw [hs] at hslots
      cases hslots
    · obtain ⟨r, hr⟩ := Option.ne_none_iff_exists'.1 h
      rw [hr] at hrest
      simp [Remainder.statements] at hrest
  unfold text blockText statements
  rw [htexts, ← hbody]
  cases i.least with
  | none => rw [Option.elim_none, String.empty_append, Option.toList_none, List.map_nil, List.nil_append]
  | some l =>
    have happend : lines ([l.statement.text "  "] ++ body.map (Statement.text "  ")) = _ :=
      lines_append (List.cons_ne_nil _ _) hsome
    rw [lines_singleton] at happend
    rw [Option.elim_some, Least.text_eq]
    exact happend.symm

/-- How many arguments an intake asks for. -/
def required (i : Intake) : Nat :=
  i.least.elim 0 (·.count)

/-- The assignments of an intake. -/
def assigned (args : List String) (i : Intake) : List (String × String) :=
  i.slots.flatMap (Slot.assigned w args) ++
    (i.remainder.map fun r => (r.name, " ".intercalate (r.rest w args))).toList

/-- The arguments that an intake leaves. -/
def rest (args : List String) (i : Intake) : List String :=
  i.remainder.elim args (Remainder.rest w args)

/-- **An intake ends the script if there are too few arguments**, and else assigns the argument at each
place. -/
theorem run_eq (i : Intake) (args : List String) :
    runBlock w (.start args) i.statements =
      if args.length < i.required then (.start args, .ended)
      else (⟨i.rest w args, i.assigned w args, []⟩, .next) := by
  have hcheck : runBlock w (.start args) (i.least.toList.map Least.statement) =
      (.start args, if args.length < i.required then .ended else .next) := by
    unfold required
    cases i.least with
    | none => rfl
    | some l =>
      rw [Option.toList_some, List.map_singleton, Option.elim_some, runBlock, inOrder, Least.run_eq]
      by_cases hlt : args.length < l.count
      · simp [Frame.start, hlt]
      · simp [Frame.start, hlt]
  unfold statements
  split
  · rename_i hlt
    rw [if_pos hlt] at hcheck
    exact inOrder_append_ended hcheck _
  · rename_i hlt
    rw [if_neg hlt] at hcheck
    rw [runBlock, inOrder_append_next hcheck, inOrder_append_next (Slot.run_all w i.slots _)]
    unfold rest assigned
    cases i.remainder with
    | none => simp [Frame.start]
    | some r =>
      have hrun := Remainder.run_eq w r
      rw [runBlock] at hrun
      rw [Option.elim_some, hrun]
      simp [Frame.start]

end Intake

end Justfile.Script
