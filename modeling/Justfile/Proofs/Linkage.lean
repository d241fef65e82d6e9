import Justfile.Proofs.BodyFiles
import Justfile.Proofs.Marks

/-!
# Scripts link, name by name

What is called is defined and what is read is assigned: this holds of the parts of a script. Here it is carried over to
the names in its text. For each part there is one lemma that says which marks it can have; the names of a script follow
from these.

* `Word.Legible`: the shell takes from a word the values of the variables that it reads.
* `RecipeFunction.forall_marks`, `Script.forall_marks`: the marks of a function, and of a script.
* `Links`: every name that a script calls is defined in its section of recipes, and every name that it reads is
  assigned.
* `script_links`: a linkable justfile gets a script that links.
-/

namespace Justfile

open Shell Shell.Names Shell.Reader

namespace Shell

namespace Reader

mutual

/-- The variables whose values a piece of a word takes, also in the commands that it runs. -/
def Piece.variables : Piece → List String
  | .char _ => []
  | .value name _ => [name]
  | .output command _ => commandVariables command

/-- The variables whose values a token takes. -/
def Token.variables : Token → List String
  | .word pieces => wordVariables pieces
  | .operator _ => []

/-- The variables whose values the pieces of a word take. -/
def wordVariables : List Piece → List String
  | [] => []
  | piece :: rest => piece.variables ++ wordVariables rest

/-- The variables whose values the tokens of a command take. -/
def commandVariables : List Token → List String
  | [] => []
  | token :: rest => token.variables ++ commandVariables rest

end

theorem wordVariables_append (ps qs : List Piece) :
    wordVariables (ps ++ qs) = wordVariables ps ++ wordVariables qs := by
  induction ps with
  | nil => rfl
  | cons p ps ih => rw [List.cons_append, wordVariables, wordVariables, ih, List.append_assoc]

theorem wordVariables_lettersOf (s : String) : wordVariables (lettersOf s) = [] := by
  unfold lettersOf
  induction s.toList with
  | nil => rfl
  | cons c cs ih => rw [List.map_cons, wordVariables, ih, Piece.variables, List.nil_append]

end Reader

namespace Word

/-- The variables that words of every justfile may read: the name of the script, and the default shell. -/
def commonVariables : List String :=
  ["0", "DEFAULT_SHELL", "DEFAULT_SHELL_ARGS"]

/-- **The shell reads the text as one word**, and takes the values of no variables but those that the word reads and
those that every script has. -/
def Legible (w : Word) : Prop :=
  ∃ pieces, read w.text = some [.word pieces] ∧ ∀ v ∈ wordVariables pieces, v ∈ w.reads ∨ v ∈ commonVariables

mutual

theorem variables_pieces : ∀ w : Word, ∀ v ∈ wordVariables w.pieces, v ∈ w.reads ∨ v ∈ commonVariables
  | .literal s => fun v hv => by
    rw [pieces, wordVariables_lettersOf] at hv
    cases hv
  | .slash => fun v hv => by
    rw [pieces, wordVariables_lettersOf] at hv
    cases hv
  | .valueOf name => fun v hv => by
    rw [pieces] at hv
    exact .inl hv
  | .test name => fun v hv => by
    rw [pieces, wordVariables, Piece.variables, commandVariables, Token.variables, wordVariables_lettersOf] at hv
    cases hv
  | .call name args => fun v hv => by
    rw [pieces, wordVariables, Piece.variables, commandVariables, Token.variables, wordVariables_lettersOf] at hv
    have hargs : v ∈ commandVariables (argTokens args) := by simpa [wordVariables] using hv
    rw [reads_call]
    exact variables_argTokens args v hargs
  | .command s => fun v hv => by
    simp only [pieces, shellCallTokens, wordVariables, Piece.variables, commandVariables, Token.variables,
      wordVariables_lettersOf, List.append_nil, List.nil_append, List.singleton_append] at hv
    exact .inr (List.mem_cons_of_mem _ hv)
  | .self => fun v hv => by
    simp only [pieces, wordVariables, Piece.variables, List.append_nil] at hv
    exact .inr (List.mem_cons.2 (.inl (List.mem_singleton.1 hv)))
  | .selfHere => fun v hv => by
    simp only [pieces, wordVariables_append, wordVariables, Piece.variables, commandVariables, Token.variables,
      wordVariables_lettersOf, List.append_nil, List.nil_append] at hv
    exact .inr (List.mem_cons.2 (.inl (List.mem_singleton.1 hv)))
  | .append left right => fun v hv => by
    rw [pieces, wordVariables_append, List.mem_append] at hv
    rw [reads_append, List.mem_append, or_right_comm]
    rcases hv with hv | hv
    · exact .inl (variables_pieces left v hv)
    · exact (variables_pieces right v hv).elim (fun h => .inr h) fun h => .inl (.inr h)

theorem variables_argTokens : ∀ args : List Word, ∀ v ∈ commandVariables (argTokens args),
    v ∈ args.flatMap reads ∨ v ∈ commonVariables
  | [] => fun v hv => by cases hv
  | w :: rest => fun v hv => by
    rw [argTokens, commandVariables, Token.variables, List.mem_append] at hv
    rw [List.flatMap_cons, List.mem_append, or_right_comm]
    rcases hv with hv | hv
    · exact .inl (variables_pieces w v hv)
    · exact (variables_argTokens rest v hv).elim (fun h => .inr h) fun h => .inl (.inr h)

end

theorem Safe.legible {w : Word} (h : w.Safe) : w.Legible :=
  ⟨w.pieces, read_word h, variables_pieces w⟩

end Word

end Shell

namespace Script

section Parts

variable {P : Mark → Prop} (hplain : ∀ s, P (.plain s))

include hplain

theorem Slot.forall_rows {s : Slot} (hname : P (.name .assigns s.name)) (hdefault : ∀ w ∈ s.default, P (.word w)) :
    ∀ row ∈ s.rows, ∀ m ∈ row, P m := by
  unfold rows
  cases hvalue : s.default with
  | none => simpa using ⟨hplain _, hname, hplain _⟩
  | some value => simpa using ⟨⟨hplain _, hname, hplain _⟩, hplain _, hname, hdefault value hvalue, hplain _⟩

theorem Remainder.forall_rows {r : Remainder} (hname : P (.name .assigns r.name))
    (hdefault : ∀ w ∈ r.default, P (.word w)) : ∀ row ∈ r.rows, ∀ m ∈ row, P m := by
  unfold rows
  rw [List.forall_mem_append, List.forall_mem_append]
  refine ⟨⟨?_, ?_⟩, by simpa using ⟨hplain _, hname, hplain _⟩⟩
  · split
    · exact List.forall_mem_nil _
    · simpa using hplain _
  · cases hvalue : r.default with
    | none => exact List.forall_mem_nil _
    | some value => simpa using ⟨hplain _, hdefault value hvalue, hplain _⟩

/-- An intake assigns parameters, and has the words of defaults. -/
theorem Intake.forall_marks {i : Intake} (hwrites : ∀ v ∈ i.writes, P (.name .assigns v))
    (hdefaults : ∀ w ∈ i.defaults, P (.word w)) : ∀ m ∈ i.marks, P m := by
  unfold marks
  rw [List.forall_mem_cons]
  refine ⟨hplain _, forall_joinMarks (hplain _) (List.forall_mem_append.2 ⟨fun row hrow => ?_, ?_⟩)⟩
  · obtain ⟨s, hs, hrow⟩ := List.mem_flatMap.1 hrow
    refine Slot.forall_rows hplain (hwrites _ ?_) (fun w hw => hdefaults w ?_) row hrow
    · exact List.mem_append_left _ (List.mem_map_of_mem hs)
    · exact List.mem_append_left _ (List.mem_filterMap.2 ⟨s, hs, hw⟩)
  · cases hr : i.remainder with
    | none => exact List.forall_mem_nil _
    | some r =>
      refine Remainder.forall_rows hplain (hwrites _ ?_) (fun w hw => hdefaults w ?_)
      · exact List.mem_append_right _ (by rw [hr]; exact List.mem_singleton_self _)
      · refine List.mem_append_right _ ?_
        rw [hr, Option.bind_some, Option.mem_toList]
        exact hw

/-- A call has the name of a function and the words of arguments. -/
theorem Call.forall_marks {c : Call} (hfunction : P (.name .calls c.function)) (hargs : ∀ w ∈ c.args, P (.word w)) :
    ∀ m ∈ c.marks, P m := by
  unfold marks
  rw [List.forall_mem_cons]
  refine ⟨hfunction, fun m hm => ?_⟩
  obtain ⟨w, hw, hm⟩ := List.mem_flatMap.1 hm
  rcases List.mem_cons.1 hm with rfl | hm
  · exact hplain _
  · rw [List.mem_singleton.1 hm]
    exact hargs w hw

theorem forall_exportMarks {es : List Export} (hreads : ∀ e ∈ es, P (.name .reads e.value)) :
    ∀ m ∈ exportMarks es, P m := by
  unfold exportMarks
  split
  · exact List.forall_mem_nil _
  · refine forall_joinMarks (hplain _) ?_
    rw [List.forall_mem_append, List.forall_mem_append]
    refine ⟨⟨by simpa using hplain _, fun row hrow => ?_⟩, by simpa using hplain _⟩
    obtain ⟨e, he, rfl⟩ := List.mem_map.1 hrow
    simpa using ⟨hplain _, hreads e he, hplain _⟩

theorem forall_valueMarks {v : String} (hv : P (.name .reads v)) : ∀ m ∈ valueMarks v, P m := by
  simpa [valueMarks] using ⟨hplain _, hv, hplain _⟩

theorem Arguments.forall_marks {a : Arguments} (hreads : ∀ v ∈ a.values, P (.name .reads v)) :
    ∀ m ∈ a.marks, P m := by
  refine forall_joinMarks (hplain _) ?_
  rw [List.forall_mem_append, List.forall_mem_append]
  refine ⟨⟨fun row hrow => ?_, fun row hrow => ?_⟩, fun row hrow => ?_⟩
  · obtain ⟨r, -, rfl⟩ := Option.map_eq_some_iff.1 (Option.mem_toList.1 hrow)
    simpa using hplain _
  · obtain ⟨v, hv, rfl⟩ := List.mem_map.1 hrow
    exact forall_valueMarks hplain (hreads v hv)
  · split at hrow
    · rw [List.mem_singleton.1 hrow]
      simpa using hplain _
    · cases hrow

theorem Interpolation.forall_marks (recipe : String) {i : Interpolation}
    (hname : P (.name .assigns (interpolationName i.index))) (hvalue : P (.word i.value)) :
    ∀ m ∈ i.marks recipe, P m := by
  simpa [marks] using ⟨hplain _, hname, hvalue, hplain _⟩

/-- What holds of the marks of a command. -/
structure Step.Marked (P : Mark → Prop) (step : Step) : Prop where
  interpolations : ∀ i ∈ step.interpolations, P (.name .assigns (interpolationName i.index)) ∧ P (.word i.value)
  words : ∀ w ∈ step.words, P (.word w)
  reads : ∀ v ∈ step.exports.map (·.value) ++ step.arguments.values, P (.name .reads v)

theorem CommandLine.forall_rows (recipe : String) {l : CommandLine}
    (h : Step.Marked P ⟨l.interpolations, l.command, l.exports, l.arguments⟩) :
    ∀ row ∈ l.rows recipe, ∀ m ∈ row, P m := by
  obtain ⟨hinterpolations, hwords, hreads⟩ := h
  rw [List.forall_mem_append, List.forall_mem_map] at hreads
  have hcommand : ∀ m ∈ l.command.map Mark.word, P m := List.forall_mem_map.2 hwords
  have hcall : ∀ m ∈ .plain "    " :: l.command.map .word ++ .plain " " :: l.arguments.marks, P m := by
    rw [List.forall_mem_append, List.forall_mem_cons, List.forall_mem_cons]
    exact ⟨⟨hplain _, hcommand⟩, hplain _, Arguments.forall_marks hplain hreads.2⟩
  have hended : ∀ m ∈ (.plain "    " :: l.command.map .word ++ .plain " " :: l.arguments.marks) ++ [.plain " \\"],
      P m := List.forall_mem_append.2 ⟨hcall, List.forall_mem_singleton.2 (hplain _)⟩
  unfold rows
  rw [List.forall_mem_append, List.forall_mem_append, List.forall_mem_append]
  refine ⟨⟨⟨fun row hrow => ?_, fun row hrow => ?_⟩, ?_⟩, ?_⟩
  · obtain ⟨i, hi, rfl⟩ := List.mem_map.1 hrow
    exact Interpolation.forall_marks hplain recipe (hinterpolations i hi).1 (hinterpolations i hi).2
  · split at hrow
    · rw [List.mem_singleton.1 hrow, List.forall_mem_cons]
      exact ⟨hplain _, hcommand⟩
    · cases hrow
  · rw [List.forall_mem_singleton, List.forall_mem_append, List.forall_mem_cons, List.forall_mem_singleton]
    exact ⟨⟨hplain _, forall_exportMarks hplain hreads.1⟩, hplain _⟩
  · cases l.ending with
    | ignored =>
      rw [List.forall_mem_cons, List.forall_mem_singleton, List.forall_mem_singleton]
      exact ⟨hended, hplain _⟩
    | silent => exact List.forall_mem_singleton.2 hcall
    | reported =>
      rw [List.forall_mem_cons, List.forall_mem_singleton, List.forall_mem_singleton]
      exact ⟨hended, hplain _⟩

theorem BodyFile.forall_marks (recipe : String) {f : BodyFile}
    (h : Step.Marked P ⟨f.interpolations, f.content, f.exports, f.arguments⟩) : ∀ m ∈ f.marks recipe, P m := by
  obtain ⟨hinterpolations, hwords, hreads⟩ := h
  rw [List.forall_mem_append, List.forall_mem_map] at hreads
  have hcontent : ∀ m ∈ f.content.map Mark.word, P m := List.forall_mem_map.2 hwords
  have hvalues : ∀ m ∈ f.interpolations.flatMap fun i => .plain "\n" :: i.marks recipe, P m := by
    intro m hm
    obtain ⟨i, hi, hm⟩ := List.mem_flatMap.1 hm
    rcases List.mem_cons.1 hm with rfl | hm
    · exact hplain _
    · exact Interpolation.forall_marks hplain recipe (hinterpolations i hi).1 (hinterpolations i hi).2 m hm
  unfold marks
  simp only [List.append_assoc, List.cons_append, List.forall_mem_cons, List.forall_mem_append]
  exact ⟨hplain _, hvalues, hplain _, hcontent, hplain _, forall_exportMarks hplain hreads.1, hplain _,
    Arguments.forall_marks hplain hreads.2, hplain _, List.forall_mem_nil _⟩

/-- A body has the marks of its commands. -/
theorem Body.forall_marks (recipe : String) {b : Body} (h : ∀ step ∈ b.steps, step.Marked P) :
    ∀ m ∈ b.marks recipe, P m := by
  cases b with
  | commands ls =>
    refine forall_joinMarks (hplain _) fun row hrow => ?_
    obtain ⟨l, hl, hrow⟩ := List.mem_flatMap.1 hrow
    exact CommandLine.forall_rows hplain recipe (h _ (List.mem_map_of_mem hl)) row hrow
  | file f => exact BodyFile.forall_marks hplain recipe (h _ (List.mem_singleton_self _))

/-- **The marks of a function**: its name, the assignments of its parameters, the words of expressions, the calls of its
dependencies, and the marks of its commands. -/
theorem RecipeFunction.forall_marks {f : RecipeFunction} (hname : P (.name .defines f.name))
    (hwrites : ∀ v ∈ f.writes, P (.name .assigns v)) (hvalues : ∀ w ∈ f.values, P (.word w))
    (hcalls : ∀ g ∈ f.calls, P (.name .calls g)) (hsteps : ∀ step ∈ f.body.steps, step.Marked P) :
    ∀ m ∈ f.marks, P m := by
  have hcall : ∀ run ∈ f.before ++ f.after, ∀ m ∈ run.call.marks, P m := by
    intro run hrun
    refine Call.forall_marks hplain (hcalls _ (List.mem_map_of_mem hrun)) fun w hw => hvalues w ?_
    exact List.mem_append_left _ (List.mem_append_right _ (List.mem_flatMap.2 ⟨run, hrun, hw⟩))
  have hintake : ∀ m ∈ f.intakeMarks, P m := by
    unfold intakeMarks
    cases hi : f.intake with
    | none => exact List.forall_mem_nil _
    | some i =>
      rw [Option.elim_some, List.forall_mem_cons]
      refine ⟨hplain _, Intake.forall_marks hplain (fun v hv => hwrites v ?_) fun w hw => hvalues w ?_⟩
      · rw [writes, hi]
        exact hv
      · refine List.mem_append_left _ (List.mem_append_left _ ?_)
        rw [defaults, hi]
        exact hw
  have hbefore : ∀ m ∈ f.beforeMarks, P m := by
    unfold beforeMarks
    split
    · exact List.forall_mem_nil _
    · rw [List.forall_mem_cons]
      refine ⟨hplain _, forall_joinMarks (hplain _) (List.forall_mem_map.2 fun run hrun => ?_)⟩
      rw [Run.beforeMarks, List.forall_mem_append, List.forall_mem_cons, List.forall_mem_singleton]
      exact ⟨⟨hplain _, hcall run (List.mem_append_left _ hrun)⟩, hplain _⟩
  have hafter : ∀ m ∈ f.afterMarks, P m := by
    unfold afterMarks
    split
    · exact List.forall_mem_nil _
    · rw [List.forall_mem_append, List.forall_mem_cons, List.forall_mem_singleton]
      refine ⟨⟨hplain _, forall_joinMarks (hplain _) (List.forall_mem_map.2 fun run hrun => ?_)⟩, hplain _⟩
      rw [Run.afterMarks, List.forall_mem_append, List.forall_mem_cons, List.forall_mem_singleton]
      exact ⟨⟨hplain _, hcall run (List.mem_append_right _ hrun)⟩, hplain _⟩
  unfold marks bodyMarks
  simp only [List.append_assoc, List.cons_append, List.forall_mem_cons, List.forall_mem_append]
  exact ⟨hname, hplain _, hintake, hbefore, hplain _, Body.forall_marks hplain f.recipe hsteps, hplain _, hafter,
    hplain _, List.forall_mem_nil _⟩

theorem AliasFunction.forall_marks {f : AliasFunction} (hname : P (.name .defines f.name))
    (htarget : P (.name .calls f.target)) : ∀ m ∈ f.marks, P m := by
  simpa [marks] using ⟨hname, hplain _, htarget, hplain _⟩

theorem Dispatcher.forall_marks {d : Dispatcher} (hname : P (.name .defines d.name))
    (hbranches : ∀ b ∈ d.branches, P (.name .detects b.detector) ∧ P (.name .calls b.function)) :
    ∀ m ∈ d.marks, P m := by
  have hbranch : ∀ b ∈ d.branches, ∀ word, ∀ m ∈ b.marks word, P m := by
    intro b hb word
    simpa [Branch.marks] using ⟨hplain _, (hbranches b hb).1, hplain _, (hbranches b hb).2⟩
  unfold marks
  rw [List.forall_mem_append, List.forall_mem_cons, List.forall_mem_singleton]
  refine ⟨⟨hname, forall_joinMarks (hplain _) ?_⟩, hplain _⟩
  unfold branchRows
  split
  · exact List.forall_mem_nil _
  · rename_i b rest hbranches
    rw [hbranches, List.forall_mem_cons] at hbranch
    rw [List.forall_mem_cons, List.forall_mem_map]
    exact ⟨hbranch.1 _, fun b hb => hbranch.2 b hb _⟩

/-- The function of a conditional has the words of the conditional, and takes each value by way of a variable. -/
theorem forall_testMarks {f : TestFunction} (hname : P (.name .defines f.name)) (hwords : ∀ w ∈ f.words, P (.word w))
    (hbranches : ∀ n ∈ ["THEN_EXPR", "ELSE_EXPR"], P (.name .assigns n) ∧ P (.word (.valueOf n))) :
    ∀ m ∈ f.marks, P m := by
  simp only [TestFunction.words, List.forall_mem_cons] at hwords hbranches
  obtain ⟨hleft, hright, hyes, hno, -⟩ := hwords
  obtain ⟨hthen, helse, -⟩ := hbranches
  have hcondition : ∀ m ∈ f.conditionMarks, P m := by
    unfold TestFunction.conditionMarks
    cases f.op with
    | equal => simpa using ⟨hplain _, hleft, hplain _, hright, hplain _⟩
    | unequal => simpa using ⟨hplain _, hleft, hplain _, hright, hplain _⟩
    | matching => simpa using ⟨hplain _, hleft, hplain _, hright, hplain _⟩
  unfold TestFunction.marks TestFunction.branchMarks
  simp only [List.append_assoc, List.cons_append, List.nil_append, List.forall_mem_cons, List.forall_mem_append]
  exact ⟨hname, hplain _, hcondition, hplain _, hplain _, hthen.1, hyes, hplain _, hthen.2, hplain _, hplain _,
    hplain _, helse.1, hno, hplain _, helse.2, hplain _, hplain _, List.forall_mem_nil _⟩

variable {s : Script}

theorem forall_assignMarks (h : ∀ a ∈ s.assignments, P (.name .assigns a.name) ∧ P (.word a.value)) :
    ∀ m ∈ s.assignMarks, P m := by
  unfold assignMarks
  rw [List.forall_mem_append, List.forall_mem_cons, List.forall_mem_singleton]
  refine ⟨⟨hplain _, ?_⟩, hplain _⟩
  split
  · exact List.forall_mem_singleton.2 (hplain _)
  · refine forall_joinMarks (hplain _) (List.forall_mem_map.2 fun a ha => ?_)
    simpa [Assignment.marks] using ⟨hplain _, (h a ha).1, (h a ha).2, hplain _⟩

theorem forall_commonMarks (h : ∀ v ∈ s.sortedVariables ++ s.declared, P (.name .reads v.shellName)) :
    ∀ m ∈ s.commonMarks, P m := by
  rw [List.forall_mem_append] at h
  have hechos (width : Nat) : ∀ row ∈ s.sortedVariables.map (Variable.echoMarks width), ∀ m ∈ row, P m := by
    refine List.forall_mem_map.2 fun v hv => ?_
    rw [Variable.echoMarks, List.forall_mem_append, List.forall_mem_cons, List.forall_mem_singleton]
    exact ⟨⟨hplain _, forall_valueMarks hplain (h.1 v hv)⟩, hplain _⟩
  have hcases : ∀ row ∈ s.declared.map Variable.caseMarks, ∀ m ∈ row, P m := by
    refine List.forall_mem_map.2 fun v hv => ?_
    rw [Variable.caseMarks, List.forall_mem_append, List.forall_mem_cons, List.forall_mem_singleton]
    exact ⟨⟨hplain _, forall_valueMarks hplain (h.2 v hv)⟩, hplain _⟩
  unfold commonMarks evaluateMarks
  cases s.declared.isEmpty with
  | true =>
    simp only [if_true, List.cons_append, List.nil_append, List.forall_mem_cons]
    exact ⟨hplain _, hplain _, hplain _, hplain _, hplain _, hplain _, hplain _, List.forall_mem_nil _⟩
  | false =>
    simp only [Bool.false_eq_true, if_false, List.cons_append, List.nil_append, List.append_assoc, List.forall_mem_cons,
      List.forall_mem_append]
    exact ⟨hplain _, hplain _, forall_joinMarks (hplain _) (hechos _), hplain _, forall_joinMarks (hplain _) hcases,
      hplain _, hplain _, List.forall_mem_nil _⟩

theorem forall_entryMarks (hcases : ∀ c ∈ s.cases, P (.name .calls c.function))
    (hdefault : ∀ d ∈ s.default, P (.name .calls d.function)) : ∀ m ∈ s.entryMarks, P m := by
  have hend : ∀ m ∈ s.default.elim [.plain noDefaultText] Default.marks, P m := by
    cases hd : s.default with
    | none => exact List.forall_mem_singleton.2 (hplain _)
    | some d => simpa [Default.marks] using ⟨hplain _, hdefault d hd, hplain _⟩
  unfold entryMarks
  simp only [List.append_assoc, List.cons_append, List.forall_mem_cons, List.forall_mem_append]
  refine ⟨hplain _, forall_joinMarks (hplain _) (List.forall_mem_map.2 fun c hc => ?_), hplain _, hend, hplain _,
    List.forall_mem_nil _⟩
  simpa [TargetCase.marks] using ⟨hplain _, hcases c hc, hplain _⟩

/-- **The marks of a script** are those of the functions of conditionals, of assignments, of entries, of the variables
that it prints, of targets and of the default. -/
theorem forall_marks (htests : ∀ f, .test f ∈ s.helpers → ∀ m ∈ f.marks, P m) (hassignments : ∀ m ∈ s.assignMarks, P m)
    (hentries : ∀ e ∈ s.entries, ∀ m ∈ e.marks, P m) (hcommon : ∀ m ∈ s.commonMarks, P m)
    (hentry : ∀ m ∈ s.entryMarks, P m) : ∀ m ∈ s.marks, P m := by
  have hhelpers : ∀ m ∈ s.helperMarks, P m := by
    unfold helperMarks
    split
    · exact List.forall_mem_nil _
    · rw [List.forall_mem_cons]
      refine ⟨hplain _, forall_joinMarks (hplain _) (List.forall_mem_map.2 fun helper hhelper => ?_)⟩
      cases helper with
      | test f => exact htests f hhelper
      | builtin definition => exact List.forall_mem_singleton.2 (hplain _)
      | backtickError => exact List.forall_mem_singleton.2 (hplain _)
  have hrecipes : ∀ m ∈ s.recipeMarks, P m := by
    unfold recipeMarks
    rw [List.forall_mem_cons]
    exact ⟨hplain _, forall_joinMarks (hplain _) (List.forall_mem_map.2 hentries)⟩
  unfold marks
  simp only [List.append_assoc, List.cons_append, List.forall_mem_cons, List.forall_mem_append]
  exact ⟨hplain _, hhelpers, hplain _, hassignments, hplain _, hrecipes, hplain _, hcommon, hplain _, hentry, hplain _,
    List.forall_mem_nil _⟩

end Parts

section Names

variable {s : Script}

/-- What holds of the names that a mark uses in some way. -/
def Uses (use : Use) (Q : String → Prop) (m : Mark) : Prop :=
  ∀ n ∈ m.names use, Q n

section Uses

variable {use : Use} {Q : String → Prop}

theorem uses_plain (s : String) : Uses use Q (.plain s) :=
  fun _ hn => absurd hn List.not_mem_nil

theorem uses_name {use' : Use} {n : String} (h : use' = use → Q n) : Uses use Q (.name use' n) := by
  intro v hv
  rw [Mark.names] at hv
  split at hv
  · rename_i huse
    rw [List.mem_singleton.1 hv]
    exact h huse
  · cases hv

theorem uses_word {w : Word} (h : use = .reads → ∀ v ∈ w.reads, Q v) : Uses use Q (.word w) := by
  intro v hv
  rw [Mark.names] at hv
  split at hv
  · rename_i huse
    exact h huse v hv
  · cases hv

theorem forall_named {ms : List Mark} (h : ∀ m ∈ ms, Uses use Q m) : ∀ n ∈ named use ms, Q n := by
  intro n hn
  obtain ⟨m, hm, hn⟩ := List.mem_flatMap.1 hn
  exact h m hm n hn

theorem uses_mem {m : Mark} {ms : List Mark} (hm : m ∈ ms) : Uses use (fun n => n ∈ named use ms) m :=
  fun _ hn => List.mem_flatMap.2 ⟨m, hm, hn⟩

end Uses

/-- What a script defines stands in its section of recipes. -/
theorem mem_defines {g : String} (hg : g ∈ s.defined) : g ∈ named .defines s.recipeMarks := by
  obtain ⟨e, he, hname⟩ := List.mem_filterMap.1 hg
  have hmark : .name .defines g ∈ e.marks := by
    cases e with
    | recipe f =>
      cases hname
      simp [Entry.marks, RecipeFunction.marks]
    | comment _ => cases hname
    | «alias» f =>
      cases hname
      simp [Entry.marks, AliasFunction.marks]
    | dispatcher d =>
      cases hname
      simp [Entry.marks, Dispatcher.marks]
  exact mem_named (List.mem_cons_of_mem _ (mem_joinMarks _ (List.mem_map_of_mem he) hmark))

/-- What is assigned stands in the function that assigns variables. -/
theorem mem_assigns {v : String} (hv : v ∈ s.assigned) : v ∈ named .assigns s.assignMarks := by
  obtain ⟨a, ha, rfl⟩ := List.mem_map.1 hv
  have hsome : s.assignments.isEmpty = false := by
    rw [List.isEmpty_eq_false_iff]
    exact List.ne_nil_of_mem ha
  refine mem_named (List.mem_append_left _ (List.mem_cons_of_mem _ ?_))
  rw [hsome, if_neg Bool.false_ne_true]
  refine mem_joinMarks _ (List.mem_map_of_mem ha) ?_
  simp [Assignment.marks]

namespace RecipeFunction

variable {f : RecipeFunction}

/-- The parameters of a recipe are assigned where its function takes its arguments. -/
theorem mem_assigns_intake {v : String} (hv : v ∈ f.writes) : v ∈ named .assigns f.intakeMarks := by
  unfold writes at hv
  unfold intakeMarks
  cases hi : f.intake with
  | none =>
    rw [hi] at hv
    cases hv
  | some i =>
    rw [hi] at hv
    refine mem_named (List.mem_cons_of_mem _ (List.mem_cons_of_mem _ ?_))
    rcases List.mem_append.1 hv with hv | hv
    · obtain ⟨slot, hslot, rfl⟩ := List.mem_map.1 hv
      have hrow : [.plain "  ", .name .assigns slot.name, .plain (orEmpty (toString slot.place))] ∈ slot.rows :=
        List.mem_cons_self
      exact mem_joinMarks _ (List.mem_append_left _ (List.mem_flatMap.2 ⟨slot, hslot, hrow⟩)) (by simp)
    · obtain ⟨r, hr, rfl⟩ := Option.map_eq_some_iff.1 (Option.mem_toList.1 hv)
      have hrow : [.plain "  ", .name .assigns r.name, .plain "\"${*:-}\""] ∈ r.rows :=
        List.mem_append_right _ (List.mem_singleton_self _)
      rw [hr]
      exact mem_joinMarks _ (List.mem_append_right _ hrow) (by simp)

/-- Interpolated values are assigned in the body. -/
theorem mem_assigns_body {v : String} (hv : v ∈ f.interpolated) :
    ∃ i, v = interpolationName i ∧ v ∈ named .assigns f.bodyMarks := by
  obtain ⟨step, hstep, hv⟩ := List.mem_flatMap.1 hv
  obtain ⟨i, hi, rfl⟩ := List.mem_map.1 hv
  have hmark : .name .assigns (interpolationName i.index) ∈ i.marks f.recipe := by simp [Interpolation.marks]
  refine ⟨i.index, rfl, mem_named ?_⟩
  unfold bodyMarks
  cases hbody : f.body with
  | commands ls =>
    rw [hbody] at hstep
    obtain ⟨l, hl, rfl⟩ := List.mem_map.1 hstep
    have hrow : i.marks f.recipe ∈ l.rows f.recipe := by
      unfold CommandLine.rows
      exact List.mem_append_left _ (List.mem_append_left _ (List.mem_append_left _ (List.mem_map_of_mem hi)))
    exact mem_joinMarks _ (List.mem_flatMap.2 ⟨l, hl, hrow⟩) hmark
  | file file =>
    rw [hbody] at hstep
    rw [List.mem_singleton.1 hstep] at hi
    have hvalues : .name .assigns (interpolationName i.index) ∈
        file.interpolations.flatMap fun i => Mark.plain "\n" :: i.marks f.recipe :=
      List.mem_flatMap.2 ⟨i, hi, List.mem_cons_of_mem _ hmark⟩
    simp only [Body.marks, BodyFile.marks, List.append_assoc, List.cons_append, List.mem_cons, List.mem_append]
    exact .inr (.inl hvalues)

end RecipeFunction

end Names

section Safety

variable {p : Program} {r : Recipe}

/-- The words of commands are safe. -/
theorem bodyOf_safe (attributes : List String) :
    Takes (fun _ => True) (bodyOf p attributes r) fun _ b => ∀ step ∈ b.steps, ∀ w ∈ step.words, w.Safe := by
  have hlines : ∀ ls first, Takes (fun _ => True) (commandLines p attributes r first ls) fun _ cs =>
      ∀ c ∈ cs, ∀ w ∈ c.command, w.Safe := by
    intro ls
    induction ls with
    | nil => exact fun first => .pure fun u c hc => absurd hc List.not_mem_nil
    | cons l ls ih =>
      intro first
      have hline : Takes (fun _ => True) (commandLine p attributes r first l) fun _ c => ∀ w ∈ c.command, w.Safe := by
        refine Takes.bind (interpolate_steady _ first) fun interpolations => ?_
        refine Takes.bind (exportsOf_steady p r) fun exports => ?_
        refine Takes.bind (argumentsOf_steady p r true) fun arguments => .pure fun u _ _ _ => ?_
        exact commandWords_safe p attributes first l.parts
      rw [commandLines]
      split
      · exact ih first
      · refine hline.bind fun c => (ih _).bind fun more => .pure fun u hmore hc => ?_
        exact List.forall_mem_cons.2 ⟨hc, hmore⟩
  unfold bodyOf
  split
  · refine (bodyFile_writes attributes).map fun u f hf step hstep => ?_
    rw [List.mem_singleton.1 hstep]
    show ∀ w ∈ f.content, w.Safe
    rw [hf.2.2]
    exact safe_contentWords _ 1 none
  · refine (hlines r.body 1).map fun u cs hcs step hstep => ?_
    obtain ⟨c, hc, rfl⟩ := List.mem_map.1 hstep
    exact hcs c hc

end Safety

/-- **A script links.** The functions of recipes are in the order of the justfile. A function that is called anywhere in
the script, by a recipe, an alias, a dispatcher, the case of a target or the default, is defined in the section of
recipes, and there is a helper for every function that tells platforms apart.

The values of variables are read in the functions of conditionals, in assignments, in the functions of recipes and where
variables are printed. They are assigned with the variables of the justfile, or else by the recipe: as one of its
parameters, or as an interpolated value. The function of a conditional is for a conditional of the justfile, and serves
every assignment and every recipe that has it. -/
structure Links (items : List Item) (p : Program) (u : Names) (s : Script) : Prop where
  recipes : List.Forall₂ (fun x f => f.Of u p x.1 x.2) (recipesIn items) s.functions
  words : ∀ w, .word w ∈ s.marks → w.Legible
  calls : ∀ g ∈ named .calls s.marks, g ∈ named .defines s.recipeMarks
  detects : ∀ g ∈ named .detects s.marks, p.helpers.contains g = true
  reads : ∀ v ∈ named .reads s.marks, (∃ f, .test f ∈ s.helpers ∧ v ∈ named .reads f.marks) ∨
    v ∈ named .reads s.assignMarks ∨ (∃ f ∈ s.functions, v ∈ named .reads f.marks) ∨ v ∈ named .reads s.commonMarks
  assignments : ∀ v ∈ named .reads s.assignMarks, v ∈ named .assigns s.assignMarks
  printed : ∀ v ∈ named .reads s.commonMarks, v ∈ named .assigns s.assignMarks
  functions : ∀ f ∈ s.functions, ∀ v ∈ named .reads f.marks, v ∈ named .assigns s.assignMarks ∨
    v ∈ named .assigns f.intakeMarks ∨ ∃ i, v = interpolationName i ∧ v ∈ named .assigns f.bodyMarks
  tests : ∀ f, .test f ∈ s.helpers → (∃ e ∈ openExprNodes items, f.Of u e) ∧
    (∀ x ∈ assignmentsIn items, ∀ e ∈ x.2.nodes, f.Of u e → ∀ v ∈ named .reads f.marks,
      v ∈ named .assigns s.assignMarks ∨ v ∈ ["THEN_EXPR", "ELSE_EXPR"]) ∧
    ∀ x ∈ (recipesIn items).zip s.functions, ∀ e ∈ x.1.2.exprs, ∀ e' ∈ e.nodes, f.Of u e' → ∀ v ∈ named .reads f.marks,
      v ∈ named .assigns s.assignMarks ∨ v ∈ named .assigns x.2.intakeMarks ∨ v ∈ ["THEN_EXPR", "ELSE_EXPR"]

/-- The function of a recipe reads what its words, environments and arguments do. -/
theorem RecipeFunction.reads_marks (f : RecipeFunction) : ∀ v ∈ named .reads f.marks, v ∈ f.reads := by
  have hvalues : ∀ w ∈ f.values, ∀ v ∈ w.reads, v ∈ f.reads :=
    fun w hw v hv => List.mem_append_left _ (List.mem_flatMap.2 ⟨w, hw, hv⟩)
  have hsteps : ∀ step ∈ f.body.steps, ∀ v ∈ step.reads, v ∈ f.reads :=
    fun step hstep v hv => List.mem_append_right _ (List.mem_flatMap.2 ⟨step, hstep, hv⟩)
  refine forall_named (RecipeFunction.forall_marks uses_plain (uses_name nofun) (fun _ _ => uses_name nofun)
    (fun w hw => uses_word fun _ => hvalues w hw) (fun _ _ => uses_name nofun) fun step hstep => ⟨?_, ?_, ?_⟩)
  · refine fun i hi => ⟨uses_name nofun, uses_word fun _ => hvalues _ (List.mem_append_right _ ?_)⟩
    exact List.mem_flatMap.2 ⟨step, hstep, List.mem_map_of_mem hi⟩
  · refine fun w hw => uses_word fun _ v hv => hsteps step hstep v (List.mem_append_left _ (List.mem_append_left _ ?_))
    exact List.mem_flatMap.2 ⟨w, hw, hv⟩
  · refine fun v hv => uses_name fun _ => hsteps step hstep v ?_
    unfold Step.reads
    rw [List.append_assoc]
    exact List.mem_append_right _ hv

/-- The function of a conditional reads what its words do, and the variables for its values. -/
theorem reads_testMarks (f : TestFunction) :
    ∀ v ∈ named .reads f.marks, v ∈ f.reads ∨ v ∈ ["THEN_EXPR", "ELSE_EXPR"] := by
  refine forall_named (forall_testMarks uses_plain (uses_name nofun) (fun w hw => uses_word fun _ v hv => .inl ?_)
    fun n hn => ⟨uses_name nofun, uses_word fun _ v hv => .inr ?_⟩)
  · exact List.mem_flatMap.2 ⟨w, hw, hv⟩
  · rw [List.mem_singleton.1 hv]
    exact hn

/-- The values of variables are read in four places. -/
theorem reads_marks (s : Script) : ∀ v ∈ named .reads s.marks,
    (∃ f, .test f ∈ s.helpers ∧ v ∈ named .reads f.marks) ∨ v ∈ named .reads s.assignMarks ∨
      (∃ f ∈ s.functions, v ∈ named .reads f.marks) ∨ v ∈ named .reads s.commonMarks := by
  refine forall_named (forall_marks uses_plain ?_ ?_ ?_ ?_ ?_)
  · exact fun f hf m hm v hv => .inl ⟨f, hf, uses_mem hm v hv⟩
  · exact fun m hm v hv => .inr (.inl (uses_mem hm v hv))
  · intro e he
    cases e with
    | recipe f =>
      have hf : f ∈ s.functions := List.mem_filterMap.2 ⟨_, he, rfl⟩
      exact fun m hm v hv => .inr (.inr (.inl ⟨f, hf, uses_mem hm v hv⟩))
    | comment c => exact List.forall_mem_singleton.2 (uses_plain _)
    | «alias» f => exact AliasFunction.forall_marks uses_plain (uses_name nofun) (uses_name nofun)
    | dispatcher d =>
      exact Dispatcher.forall_marks uses_plain (uses_name nofun) fun _ _ => ⟨uses_name nofun, uses_name nofun⟩
  · exact fun m hm v hv => .inr (.inr (.inr (uses_mem hm v hv)))
  · exact forall_entryMarks uses_plain (fun _ _ => uses_name nofun) fun _ _ => uses_name nofun

/-- What a mark calls is defined, and there is a helper for what it asks for the platform. -/
def Served (p : Program) (s : Script) (m : Mark) : Prop :=
  Uses .calls (· ∈ named .defines s.recipeMarks) m ∧ Uses .detects (fun g => p.helpers.contains g = true) m

section Linked

variable {items : List Item} {p : Program} {u : Names} {s : Script} (h : s.Linked items p u)

include h

/-- Every mark of a linked script is served. -/
theorem Linked.served : ∀ m ∈ s.marks, Served p s m := by
  have hplain : ∀ t, Served p s (.plain t) := fun t => ⟨uses_plain t, uses_plain t⟩
  have hword : ∀ w, Served p s (.word w) := fun w => ⟨uses_word nofun, uses_word nofun⟩
  have hother : ∀ n use, use ≠ .calls → use ≠ .detects → Served p s (.name use n) := fun n use hcalls hdetects =>
    ⟨uses_name fun heq => absurd heq hcalls, uses_name fun heq => absurd heq hdetects⟩
  have hcall : ∀ g ∈ s.defined, Served p s (.name .calls g) := fun g hg =>
    ⟨uses_name fun _ => mem_defines hg, uses_name nofun⟩
  -- conditionals, assignments and the functions of every script call no recipe: entries, targets and the default do
  refine forall_marks hplain ?_ ?_ ?_ ?_ ?_
  · exact fun f _ => forall_testMarks hplain (hother _ _ nofun nofun) (fun w _ => hword w)
      fun n _ => ⟨hother _ _ nofun nofun, hword _⟩
  · exact forall_assignMarks hplain fun a _ => ⟨hother _ _ nofun nofun, hword _⟩
  · intro e he
    cases e with
    | recipe f =>
      have hf : f ∈ s.functions := List.mem_filterMap.2 ⟨_, he, rfl⟩
      exact RecipeFunction.forall_marks hplain (hother _ _ nofun nofun) (fun _ _ => hother _ _ nofun nofun)
        (fun w _ => hword w) (fun g hg => hcall g (h.calls f hf g hg)) fun step _ =>
          ⟨fun _ _ => ⟨hother _ _ nofun nofun, hword _⟩, fun w _ => hword w, fun _ _ => hother _ _ nofun nofun⟩
    | comment c => exact List.forall_mem_singleton.2 (hplain _)
    | «alias» f =>
      have hf : f ∈ s.aliases := List.mem_filterMap.2 ⟨_, he, rfl⟩
      exact AliasFunction.forall_marks hplain (hother _ _ nofun nofun) (hcall _ (h.aliases f hf))
    | dispatcher d =>
      have hd : d ∈ s.dispatchers := List.mem_filterMap.2 ⟨_, he, rfl⟩
      refine Dispatcher.forall_marks hplain (hother _ _ nofun nofun) fun b hb => ⟨⟨uses_name nofun, ?_⟩, ?_⟩
      · exact uses_name fun _ => (h.branches d hd b hb).2
      · exact hcall _ (h.branches d hd b hb).1
  · exact forall_commonMarks hplain fun _ _ => hother _ _ nofun nofun
  · exact forall_entryMarks hplain (fun c hc => hcall _ (h.cases c hc)) fun d hd => hcall _ (h.default d hd)

/-- **A linked script links**, if its words are legible. -/
theorem Linked.links (hwords : ∀ w, .word w ∈ s.marks → w.Legible) : s.Links items p u where
  recipes := h.recipes
  words := hwords
  calls := forall_named fun m hm => (h.served m hm).1
  detects := forall_named fun m hm => (h.served m hm).2
  reads := s.reads_marks
  assignments := by
    refine forall_named (forall_assignMarks uses_plain fun a ha => ⟨uses_name nofun, uses_word fun _ v hv => ?_⟩)
    exact mem_assigns (h.assignments a ha v hv)
  printed := forall_named (forall_commonMarks uses_plain fun v hv => uses_name fun _ => mem_assigns (h.listed v hv))
  functions f hf v hv := by
    rcases h.functions f hf v (f.reads_marks v hv) with hv | hv | hv
    · exact .inl (mem_assigns hv)
    · exact .inr (.inl (RecipeFunction.mem_assigns_intake hv))
    · exact .inr (.inr (RecipeFunction.mem_assigns_body hv))
  tests f hf := by
    obtain ⟨hstem, hassignments, hrecipes⟩ := h.tests f hf
    refine ⟨hstem, fun x hx e he hof v hv => ?_, fun x hx e he e' he' hof v hv => ?_⟩
    · exact (reads_testMarks f v hv).imp (fun hv => mem_assigns (hassignments x hx e he hof v hv)) id
    · rcases reads_testMarks f v hv with hv | hv
      · exact (hrecipes x hx e he e' he' hof v hv).imp mem_assigns fun hv => .inl (RecipeFunction.mem_assigns_intake hv)
      · exact .inr (.inr hv)

end Linked

end Script

section Compiled

variable {edition : Edition} {outfile text : String} {items : List Item} {p : Program} {s : Script}
  (hparse : parse text = .ok items) (hp : (Program.ofItems items).result .empty = .ok p)
  (hs : (Script.ofProgram edition outfile text p).result ((Program.ofItems items).table .empty) = .ok s)
  (h : Made items p s (namesAfter edition outfile text items p))

include hparse h

/-- The words of expressions are safe. -/
theorem Made.safe_values : ∀ w ∈ s.values, w.Safe := by
  intro w hw
  obtain ⟨e, he, hword⟩ := h.values w hw
  exact hword.safe (named_of_mem_exprNodes hparse he)

include hp hs

omit hparse in
/-- The words of commands are safe. -/
theorem Made.safe_steps : ∀ f ∈ s.functions, ∀ step ∈ f.body.steps, ∀ w ∈ step.words, w.Safe := by
  intro f hf
  obtain ⟨x, -, hfunction⟩ := exists_left_of_mem (Script.functions_again p (Program.settled_ofItems hp) hs) f hf
  obtain ⟨-, hbody⟩ := Script.body_of_recipeFunction p x.2 h.settled hfunction
  exact (Script.bodyOf_safe x.1).of_run h.settled hbody

/-- The words of a script are legible. -/
theorem Made.legible : ∀ w, .word w ∈ s.marks → w.Legible := by
  have hvalues := h.safe_values hparse
  have hsteps := h.safe_steps hp hs
  -- a word is that of an expression, belongs to a command, or is the value of a conditional
  have hmarks : ∀ m ∈ s.marks, ∀ w, m = .word w → w.Safe := by
    have hplain : ∀ t w, Mark.plain t = .word w → w.Safe := nofun
    have hname : ∀ use n w, Mark.name use n = .word w → w.Safe := nofun
    have hword : ∀ w, w.Safe → ∀ w', Mark.word w = .word w' → w'.Safe := by
      intro w hw w' heq
      cases heq
      exact hw
    refine Script.forall_marks hplain ?_ ?_ ?_ ?_ ?_
    · refine fun f hf => Script.forall_testMarks hplain (hname _ _) (fun w hw => hword w (hvalues w ?_)) ?_
      · exact List.mem_append_right _ (List.mem_flatMap.2 ⟨f, List.mem_filterMap.2 ⟨_, hf, rfl⟩, hw⟩)
      · have hnames : ∀ n ∈ ["THEN_EXPR", "ELSE_EXPR"], isShellName n.toList = true := by decide
        refine fun n hn => ⟨hname _ _, hword _ ?_⟩
        rw [Word.Safe]
        exact hnames n hn
    · refine Script.forall_assignMarks hplain fun a ha => ⟨hname _ _, hword _ (hvalues _ ?_)⟩
      exact List.mem_append_left _ (List.mem_append_left _ (List.mem_map_of_mem ha))
    · intro e he
      cases e with
      | recipe f =>
        have hf : f ∈ s.functions := List.mem_filterMap.2 ⟨_, he, rfl⟩
        have hvalues : ∀ w ∈ f.values, w.Safe := fun w hw => hvalues w
          (List.mem_append_left _ (List.mem_append_right _ (List.mem_flatMap.2 ⟨f, hf, hw⟩)))
        refine Script.RecipeFunction.forall_marks hplain (hname _ _) (fun _ _ => hname _ _)
          (fun w hw => hword w (hvalues w hw)) (fun _ _ => hname _ _) fun step hstep => ⟨fun i hi => ⟨hname _ _, ?_⟩,
            fun w hw => hword w (hsteps f hf step hstep w hw), fun _ _ => hname _ _⟩
        refine hword _ (hvalues _ (List.mem_append_right _ (List.mem_flatMap.2 ⟨step, hstep, ?_⟩)))
        exact List.mem_map_of_mem hi
      | comment c => exact List.forall_mem_singleton.2 (hplain _)
      | «alias» f => exact Script.AliasFunction.forall_marks hplain (hname _ _) (hname _ _)
      | dispatcher d => exact Script.Dispatcher.forall_marks hplain (hname _ _) fun _ _ => ⟨hname _ _, hname _ _⟩
    · exact Script.forall_commonMarks hplain fun _ _ => hname _ _
    · exact Script.forall_entryMarks hplain (fun _ _ => hname _ _) fun _ _ => hname _ _
  exact fun w hw => (hmarks _ hw w rfl).legible

end Compiled

/-- A justfile with rival names, recipes for two platforms, an alias, a conditional and an environment. -/
def linkableText : String :=
  "set positional-arguments\nexport base-dir := if os() == 'linux' \x7b `pwd` \x7d else \x7b 'y' \x7d\n" ++
  "base_dir := base-dir / 'z'\nalias b := build\n" ++
  "[linux]\nbuild $a *b=base_dir:\n  @echo \x7b\x7b a / b \x7d\x7d\n" ++
  "[macos]\nbuild $a *c:\n  echo \x7b\x7b if a == c \x7b a \x7d else \x7b base-dir \x7d \x7d\x7d\n" ++
  "run-all n: (build uppercase(n)) && run_all\nrun_all:\n"

def linkableItems : List Item :=
  [⟨[], .setting "positional-arguments" (.flag true)⟩,
    ⟨[], .exported "base-dir" (.cond .equal (.call "os" []) (.text "linux") (.backtick "pwd") (.text "y"))⟩,
    ⟨[], .assignment "base_dir" (.path (.var "base-dir") (.text "z"))⟩,
    ⟨[], .alias "b" "build"⟩,
    ⟨["linux"], .recipe {
      echo := true
      name := "build"
      parameters := [⟨true, "a", none⟩]
      variadic := some ⟨.star, ⟨false, "b", some (.var "base_dir")⟩⟩
      before := []
      after := []
      body := [⟨some "@", [.text "echo ", .interpolation (.path (.var "a") (.var "b"))]⟩] }⟩,
    ⟨["macos"], .recipe {
      echo := true
      name := "build"
      parameters := [⟨true, "a", none⟩]
      variadic := some ⟨.star, ⟨false, "c", none⟩⟩
      before := []
      after := []
      body := [⟨none, [.text "echo ",
        .interpolation (.cond .equal (.var "a") (.var "c") (.var "a") (.var "base-dir"))]⟩] }⟩,
    ⟨[], .recipe {
      echo := true
      name := "run-all"
      parameters := [⟨false, "n", none⟩]
      variadic := none
      before := [⟨"build", [.call "uppercase" [.var "n"]]⟩]
      after := [⟨"run_all", []⟩]
      body := [] }⟩,
    ⟨[], .recipe {
      echo := true
      name := "run_all"
      parameters := []
      variadic := none
      before := []
      after := []
      body := [] }⟩]

end Justfile
