import Justfile.Proofs.Layout
import Justfile.Proofs.Parts

/-!
# Names in the text of scripts

A script is a text, and its names stand among other things in it. Here the text is cut into marks: a name that a
function is defined under, a name that is called, assigned or read, a word, and what stands between these.

* `Mark`, `markText`: marks and their text. `named`: the names that are used in some way.
* `Script.marks`: the marks of a script, section by section. `Script.text_marks`: their text is the script.

Names of functions and variables of the justfile, and variables for interpolated values, are marked. The flags that a
recipe has run or is forced are not.
-/

namespace Justfile

open Shell

/-- How a script uses a name: as that of a function it defines, as a command, as a command whose output it takes, as a
variable it assigns, or for the value of a variable. -/
inductive Use where
  | defines
  | calls
  | detects
  | assigns
  | reads
  deriving DecidableEq

/-- The text of a name that is used. -/
def Use.text (name : String) : Use → String
  | .defines => name ++ "() \x7b\n"
  | .calls => name
  | .detects => "$(" ++ name ++ ")"
  | .assigns => name ++ "="
  | .reads => "$\x7b" ++ name ++ "\x7d"

/-- A part of a script. -/
inductive Mark where
  | plain (s : String)
  | name (use : Use) (n : String)
  | word (w : Word)

namespace Mark

/-- The text of a mark. -/
def text : Mark → String
  | .plain s => s
  | .name use n => use.text n
  | .word w => w.text

/-- The names that a mark uses in some way. A word reads variables. -/
def names (use : Use) : Mark → List String
  | .plain _ => []
  | .name use' n => if use' = use then [n] else []
  | .word w => if use = .reads then w.reads else []

end Mark

/-- The text of marks. -/
def markText (ms : List Mark) : String :=
  String.join (ms.map Mark.text)

/-- The names that marks use in some way. -/
def named (use : Use) (ms : List Mark) : List String :=
  ms.flatMap (Mark.names use)

/-- Rows of marks with a text between each two. -/
def joinMarks (sep : String) (rows : List (List Mark)) : List Mark :=
  [Mark.plain sep].intercalate rows

section Marks

variable {use : Use} {ms : List Mark}

@[simp]
theorem markText_nil : markText [] = "" := rfl

@[simp]
theorem markText_cons (m : Mark) (ms : List Mark) : markText (m :: ms) = m.text ++ markText ms := by
  unfold markText
  rw [List.map_cons, String.join_cons]

@[simp]
theorem markText_append (ms ns : List Mark) : markText (ms ++ ns) = markText ms ++ markText ns := by
  unfold markText
  rw [List.map_append, String.join_append]

theorem markText_joinMarks (sep : String) (rows : List (List Mark)) :
    markText (joinMarks sep rows) = sep.intercalate (rows.map markText) := by
  unfold joinMarks
  induction rows with
  | nil => rfl
  | cons row rows ih =>
    cases rows with
    | nil => simp
    | cons next rows =>
      rw [List.intercalate_cons_cons, markText_append, markText_append, ih]
      simp [Mark.text, String.append_assoc]

theorem markText_words (ws : List Word) : markText (ws.map .word) = joinText ws := by
  unfold markText joinText
  rw [List.map_map]
  rfl

theorem mem_named {n : String} (h : .name use n ∈ ms) : n ∈ named use ms := by
  refine List.mem_flatMap.2 ⟨_, h, ?_⟩
  rw [Mark.names, if_pos rfl]
  exact List.mem_singleton_self n

theorem mem_joinMarks {m : Mark} {row : List Mark} {rows : List (List Mark)} (sep : String) (hrow : row ∈ rows)
    (hm : m ∈ row) : m ∈ joinMarks sep rows := by
  unfold joinMarks
  induction rows with
  | nil => cases hrow
  | cons first rows ih =>
    cases rows with
    | nil =>
      rw [List.mem_singleton.1 hrow] at hm
      rwa [List.intercalate_singleton]
    | cons next rows =>
      rw [List.intercalate_cons_cons, List.append_assoc, List.mem_append, List.mem_append]
      rcases List.mem_cons.1 hrow with rfl | hrow
      · exact .inl hm
      · exact .inr (.inr (ih hrow))

/-- What holds of all rows and of the text between them. -/
theorem forall_joinMarks {P : Mark → Prop} {sep : String} {rows : List (List Mark)} (hsep : P (.plain sep))
    (h : ∀ row ∈ rows, ∀ m ∈ row, P m) : ∀ m ∈ joinMarks sep rows, P m := by
  unfold joinMarks
  induction rows with
  | nil => exact fun m hm => absurd hm List.not_mem_nil
  | cons first rows ih =>
    cases rows with
    | nil =>
      rw [List.intercalate_singleton]
      exact h first List.mem_cons_self
    | cons next rows =>
      rw [List.forall_mem_cons] at h
      rw [List.intercalate_cons_cons, List.forall_mem_append, List.forall_mem_append, List.forall_mem_singleton]
      exact ⟨⟨h.1, hsep⟩, ih h.2⟩

end Marks

namespace Script

/-- The value of a variable between double quotes. -/
def valueMarks (v : String) : List Mark :=
  [.plain "\"", .name .reads v, .plain "\""]

theorem text_valueMarks (v : String) : markText (valueMarks v) = valueText v := by
  have hopen := append_merge (show "\"" ++ "$\x7b" = "\"$\x7b" from rfl)
  have hclose : "\x7d" ++ "\"" = "\x7d\"" := rfl
  simp [valueMarks, valueText, Mark.text, Use.text, String.append_assoc, hopen, hclose]

namespace Slot

/-- The assignments of a parameter. -/
def rows (s : Slot) : List (List Mark) :=
  [.plain "  ", .name .assigns s.name, .plain (orEmpty (toString s.place))] ::
    match s.default with
    | some value =>
      [[.plain ("  if [ \"${#}\" -lt " ++ toString s.place ++ " ]; then\n    "), .name .assigns s.name, .word value,
        .plain "\n  fi"]]
    | none => []

theorem text_rows (s : Slot) : s.rows.map markText = s.texts := by
  unfold rows texts
  cases s.default with
  | none => simp [Mark.text, Use.text, String.append_assoc]
  | some value => simp [Mark.text, Use.text, String.append_assoc]

end Slot

namespace Remainder

/-- The assignments of the parameter that takes the remaining arguments. -/
def rows (r : Remainder) : List (List Mark) :=
  (if r.skipped = 0 then [] else [[Mark.plain (shiftText r.skipped)]]) ++
  (match r.default with
    | some value => [[Mark.plain "  if [ \"${#}\" -lt 1 ]; then\n    set -- ", .word value, Mark.plain "\n  fi"]]
    | none => []) ++
  [[Mark.plain "  ", Mark.name .assigns r.name, Mark.plain "\"${*:-}\""]]

theorem text_rows (r : Remainder) : r.rows.map markText = r.texts := by
  have hmerge : "=" ++ "\"${*:-}\"" = "=\"${*:-}\"" := rfl
  unfold rows texts
  by_cases hskipped : r.skipped = 0
  · cases r.default with
    | none => simp [Mark.text, Use.text, String.append_assoc, hskipped, hmerge]
    | some value => simp [Mark.text, Use.text, String.append_assoc, hskipped, hmerge]
  · cases r.default with
    | none => simp [Mark.text, Use.text, String.append_assoc, hskipped, hmerge]
    | some value => simp [Mark.text, Use.text, String.append_assoc, hskipped, hmerge]

end Remainder

namespace Intake

/-- The check of the number of arguments, and the assignments of parameters. -/
def marks (i : Intake) : List Mark :=
  Mark.plain (i.least.elim "" Least.text) ::
    joinMarks "\n" (i.slots.flatMap Slot.rows ++ i.remainder.elim [] Remainder.rows)

theorem text_marks (i : Intake) : markText i.marks = i.text := by
  unfold marks text
  rw [markText_cons, markText_joinMarks, List.map_append, List.map_flatMap]
  cases i.remainder with
  | none => simp [Mark.text, lines, Slot.text_rows]
  | some r => simp [Mark.text, lines, Slot.text_rows, Remainder.text_rows]

end Intake

/-- The call of a function with arguments. -/
def Call.marks (c : Call) : List Mark :=
  .name .calls c.function :: c.args.flatMap fun w => [.plain " ", .word w]

theorem Call.text_marks (c : Call) : markText c.marks = c.text := by
  have hargs : ∀ ws : List Word, markText (ws.flatMap fun w => [.plain " ", .word w]) = argText ws := by
    intro ws
    induction ws with
    | nil => rfl
    | cons w ws ih =>
      have hcons : argText (w :: ws) = " " ++ (w.text ++ argText ws) := by
        apply String.toList_injective
        simp [argText, Word.argChars, Word.text]
      rw [List.flatMap_cons, markText_append, ih, hcons]
      simp [Mark.text, String.append_assoc]
  unfold marks text
  rw [markText_cons, hargs]
  rfl

namespace Run

/-- A dependency before the recipe. -/
def beforeMarks (ownForce : String) (r : Run) : List Mark :=
  Mark.plain ("  if [ " ++ orEmpty ownForce ++ " = \"true\" ]; then\n" ++ "    " ++ r.force ++ "=\"true\"\n" ++
      "  fi\n" ++ "  ") ::
    r.call.marks ++
    [Mark.plain ("\n" ++ "  if [ " ++ orEmpty ownForce ++ " = \"true\" ]; then\n" ++ "    " ++ r.force ++ "=\n" ++
      "  fi")]

theorem text_beforeMarks (ownForce : String) (r : Run) : markText (r.beforeMarks ownForce) = r.beforeText ownForce := by
  unfold beforeMarks beforeText
  simp only [markText_cons, markText_append, markText_nil, Call.text_marks, Mark.text, String.append_assoc,
    String.append_empty, List.cons_append]

/-- A dependency after the recipe. -/
def afterMarks (r : Run) : List Mark :=
  Mark.plain ("  " ++ r.force ++ "=\"true\"\n" ++ "  ") :: r.call.marks ++ [Mark.plain ("\n" ++ "  " ++ r.force ++ "=")]

theorem text_afterMarks (r : Run) : markText r.afterMarks = r.afterText := by
  unfold afterMarks afterText
  simp only [markText_cons, markText_append, markText_nil, Call.text_marks, Mark.text, String.append_assoc,
    String.append_empty, List.cons_append]

end Run

/-- The part of a command that sets its environment. -/
def exportMarks (es : List Export) : List Mark :=
  if es.isEmpty then []
  else
    joinMarks "\n" ([[Mark.plain "\\"]] ++
      (es.map fun e => [Mark.plain ("    \"" ++ e.name ++ "="), Mark.name .reads e.value, Mark.plain "\" \\"]) ++
      [[Mark.plain "    "]])

theorem text_exportMarks (es : List Export) : markText (exportMarks es) = exportText es := by
  have hopen := append_merge (show "=" ++ "$\x7b" = "=$\x7b" from rfl)
  have hclose : "\x7d" ++ "\" \\" = "\x7d\" \\" := rfl
  unfold exportMarks exportText
  by_cases hes : es.isEmpty = true
  · rw [if_pos hes, if_pos hes]
    rfl
  · rw [if_neg hes, if_neg hes, markText_joinMarks, lines]
    simp [Mark.text, Use.text, String.append_assoc, hopen, hclose, Function.comp_def]

namespace Arguments

/-- The arguments passed on. -/
def marks (a : Arguments) : List Mark :=
  joinMarks " " ((a.recipe.map fun r => [Mark.plain ("'" ++ r ++ "'")]).toList ++ a.values.map valueMarks ++
    if a.remaining then [[Mark.plain "\"${@}\""]] else [])

theorem text_marks (a : Arguments) : markText a.marks = a.text := by
  unfold marks text
  rw [markText_joinMarks, List.map_append, List.map_append, List.map_map]
  have hvalues : markText ∘ valueMarks = valueText := funext text_valueMarks
  cases a.recipe with
  | none => cases a.remaining <;> simp [Mark.text, hvalues]
  | some r => cases a.remaining <;> simp [Mark.text, hvalues]

end Arguments

/-- The assignment of an interpolated value. -/
def Interpolation.marks (recipe : String) (i : Interpolation) : List Mark :=
  [.plain "  ", .name .assigns (interpolationName i.index), .word i.value,
    .plain (" || recipe_error '" ++ recipe ++ "' \"${LINENO:-}\"")]

theorem Interpolation.text_marks (recipe : String) (i : Interpolation) : markText (i.marks recipe) = i.text recipe := by
  unfold marks text
  simp only [markText_cons, markText_nil, Mark.text, Use.text, String.append_assoc, String.append_empty]

namespace CommandLine

/-- The rows of a line. -/
def rows (recipe : String) (l : CommandLine) : List (List Mark) :=
  let call := Mark.plain "    " :: l.command.map Mark.word ++ Mark.plain " " :: l.arguments.marks
  l.interpolations.map (Interpolation.marks recipe) ++
  (if l.echoed then [Mark.plain "  echo_recipe_line " :: l.command.map Mark.word] else []) ++
  [Mark.plain "  env " :: exportMarks l.exports ++ [Mark.plain "\"${DEFAULT_SHELL}\" ${DEFAULT_SHELL_ARGS} \\"]] ++
  match l.ending with
  | .ignored => [call ++ [Mark.plain " \\"], [Mark.plain "    || true"]]
  | .silent => [call]
  | .reported => [call ++ [Mark.plain " \\"], [Mark.plain ("    || recipe_error \"" ++ recipe ++ "\" \"${LINENO:-}\"")]]

theorem text_rows (recipe : String) (l : CommandLine) : (l.rows recipe).map markText = l.texts recipe := by
  have hvalues : markText ∘ Interpolation.marks recipe = Interpolation.text recipe :=
    funext (Interpolation.text_marks recipe)
  unfold rows texts
  rw [List.map_append, List.map_append, List.map_append, List.map_map, hvalues]
  cases l.ending <;> cases l.echoed <;>
    simp [Mark.text, markText_words, text_exportMarks, Arguments.text_marks, String.append_assoc]

end CommandLine

namespace BodyFile

/-- A body that is run from a file. -/
def marks (recipe : String) (f : BodyFile) : List Mark :=
  Mark.plain "  TEMPFILE=\"$(mktemp)\"\n  touch \"${TEMPFILE}\"\n  chmod +x \"${TEMPFILE}\"" ::
    (f.interpolations.flatMap fun i => Mark.plain "\n" :: i.marks recipe) ++
    Mark.plain "\n  echo " :: f.content.map Mark.word ++
    Mark.plain (" > \"${TEMPFILE}\"" ++ (if f.shown then "\n  cat \"${TEMPFILE}\" >&2" else "") ++ "\n  env ") ::
    exportMarks f.exports ++ Mark.plain "\"${TEMPFILE}\" " :: f.arguments.marks ++
    [Mark.plain (" " ++ (if f.reported then "\\\n    || recipe_error \"" ++ recipe ++ "\"" else "") ++
      "\n  rm \"${TEMPFILE}\" ")]

theorem text_marks (recipe : String) (f : BodyFile) : markText (f.marks recipe) = f.text recipe := by
  have hvalues : ∀ is : List Interpolation, markText (is.flatMap fun i => .plain "\n" :: i.marks recipe) =
      String.join (is.map fun i => "\n" ++ i.text recipe) := by
    intro is
    induction is with
    | nil => rfl
    | cons i is ih =>
      rw [List.flatMap_cons, markText_append, ih, markText_cons, Interpolation.text_marks, List.map_cons,
        String.join_cons]
      rfl
  unfold marks text
  simp only [markText_cons, markText_append, markText_nil, markText_words, hvalues, text_exportMarks,
    Arguments.text_marks, Mark.text, String.append_assoc, String.append_empty, List.cons_append]

end BodyFile

/-- The body of a recipe's function. -/
def Body.marks (recipe : String) : Body → List Mark
  | .commands ls => joinMarks "\n" (ls.flatMap (CommandLine.rows recipe))
  | .file f => f.marks recipe

theorem Body.text_marks (recipe : String) (b : Body) : markText (b.marks recipe) = b.text recipe := by
  cases b with
  | commands ls =>
    have hrows : (fun l => (CommandLine.rows recipe l).map markText) = CommandLine.texts recipe :=
      funext (CommandLine.text_rows recipe)
    rw [marks, markText_joinMarks, List.map_flatMap, hrows]
    rfl
  | file f => exact f.text_marks recipe

namespace RecipeFunction

variable (f : RecipeFunction)

/-- The assignments of the parameters of a recipe. -/
def intakeMarks : List Mark :=
  f.intake.elim [] fun i => .plain "\n\n" :: i.marks

/-- The body of a recipe. -/
def bodyMarks : List Mark :=
  f.body.marks f.recipe

/-- The calls of dependencies before the body. -/
def beforeMarks : List Mark :=
  if f.before.isEmpty then [] else Mark.plain "\n\n" :: joinMarks "\n" (f.before.map (Run.beforeMarks f.force))

/-- The calls of dependencies after the body. -/
def afterMarks : List Mark :=
  if f.after.isEmpty then []
  else Mark.plain "\n" :: joinMarks "\n" (f.after.map Run.afterMarks) ++ [Mark.plain "\n\n"]

/-- The function of a recipe. -/
def marks : List Mark :=
  Mark.name .defines f.name :: Mark.plain f.setupText :: f.intakeMarks ++ f.beforeMarks ++
    Mark.plain ((if f.changesDirectory then "\n\n  OLD_WD=\"$(pwd)\"\n  cd \"${INVOCATION_DIRECTORY}\"" else "") ++
      "\n\n  # Recipe body\n") :: f.bodyMarks ++
    Mark.plain ("\n\n  # Post-recipe dependencies and teardown\n" ++
      (if f.changesDirectory then "  cd \"${OLD_WD}\"\n" else "")) :: f.afterMarks ++
    [Mark.plain ("  if [ -z " ++ orEmpty f.force ++ " ]; then\n" ++ "    " ++ f.hasRun ++ "=\"true\"\n" ++ "  fi\n" ++
      "\x7d")]

theorem text_intakeMarks : markText f.intakeMarks = f.intake.elim "" fun i => "\n\n" ++ i.text := by
  unfold intakeMarks
  cases f.intake with
  | none => rfl
  | some i => simp [Mark.text, Intake.text_marks]

theorem text_beforeMarks : markText f.beforeMarks =
    if f.before.isEmpty then "" else "\n\n" ++ lines (f.before.map (Run.beforeText f.force)) := by
  have hruns : markText ∘ Run.beforeMarks f.force = Run.beforeText f.force := funext (Run.text_beforeMarks f.force)
  unfold beforeMarks
  split
  · rfl
  · rw [markText_cons, markText_joinMarks, List.map_map, hruns]
    rfl

theorem text_afterMarks : markText f.afterMarks =
    if f.after.isEmpty then "" else "\n" ++ lines (f.after.map Run.afterText) ++ "\n\n" := by
  have hruns : markText ∘ Run.afterMarks = Run.afterText := funext Run.text_afterMarks
  unfold afterMarks
  split
  · rfl
  · rw [markText_append, markText_cons, markText_joinMarks, List.map_map, hruns]
    simp [Mark.text, lines]

theorem text_marks : markText f.marks = f.text := by
  unfold marks text bodyMarks setupText define
  simp only [markText_cons, markText_append, markText_nil, text_intakeMarks, text_beforeMarks, text_afterMarks,
    Body.text_marks, Mark.text, Use.text, String.append_assoc, String.append_empty, List.cons_append]

end RecipeFunction

/-- The function of an alias. -/
def AliasFunction.marks (f : AliasFunction) : List Mark :=
  [.name .defines f.name, .plain "  ", .name .calls f.target, .plain (" \"$@\"\n" ++ "\x7d")]

theorem AliasFunction.text_marks (f : AliasFunction) : markText f.marks = f.text := by
  unfold marks text define
  simp only [markText_cons, markText_nil, Mark.text, Use.text, String.append_assoc, String.append_empty]

/-- A branch of a dispatcher. -/
def Branch.marks (b : Branch) (word : String) : List Mark :=
  [.plain ("  " ++ word ++ " [ \""), .name .detects b.detector, .plain ("\" = '" ++ b.platform ++ "' ]; then\n    "),
    .name .calls b.function]

theorem Branch.text_marks (b : Branch) (word : String) : markText (b.marks word) = b.text word := by
  have hopen := append_merge (show " [ \"" ++ "$(" = " [ \"$(" from rfl)
  have hclose := append_merge (show ")" ++ "\" = '" = ")\" = '" from rfl)
  simp [marks, text, Mark.text, Use.text, String.append_assoc, hopen, hclose]

namespace Dispatcher

/-- The branches of a dispatcher. -/
def branchRows (d : Dispatcher) : List (List Mark) :=
  match d.branches with
  | [] => []
  | b :: rest => b.marks "if" :: rest.map fun b => b.marks "elif"

/-- The function that chooses among the recipes of one name. -/
def marks (d : Dispatcher) : List Mark :=
  Mark.name .defines d.name :: joinMarks "\n" d.branchRows ++
    [Mark.plain ("\n  else\n    echo_error \"Justfile does not contain recipe \"'`" ++ d.recipe ++ "`.'\n  fi\n" ++
      "\x7d")]

theorem text_marks (d : Dispatcher) : markText d.marks = d.text := by
  unfold marks text define branchRows
  rw [markText_append, markText_cons, markText_joinMarks]
  cases d.branches with
  | nil => simp [Mark.text, Use.text, lines, String.append_assoc]
  | cons b rest => simp [Mark.text, Use.text, lines, String.append_assoc, Branch.text_marks, Function.comp_def]

end Dispatcher

/-- What stands in the section of recipes. -/
def Entry.marks : Entry → List Mark
  | .recipe f => f.marks
  | .comment s => [.plain ("# " ++ s)]
  | .alias f => f.marks
  | .dispatcher d => d.marks

theorem Entry.text_marks (e : Entry) : markText e.marks = e.text := by
  cases e with
  | recipe f => exact f.text_marks
  | comment s => simp [marks, text, Mark.text]
  | «alias» f => exact f.text_marks
  | dispatcher d => exact d.text_marks

/-- The case of a target. -/
def TargetCase.marks (c : TargetCase) : List Mark :=
  [.plain (c.target ++ ")\n    shift\n    assign_variables || exit \"${?}\"\n    "), .name .calls c.function,
    .plain (" \"$@\"\n    RUN_DEFAULT='false'\n    " ++ c.consumption.text ++ ";;")]

theorem TargetCase.text_marks (c : TargetCase) : markText c.marks = c.text := by
  unfold marks text
  simp only [markText_cons, markText_nil, Mark.text, Use.text, String.append_assoc, String.append_empty]

/-- The call of the default recipe. -/
def Default.marks (d : Default) : List Mark :=
  [.plain (d.least.elim "" (checkText d.recipe) ++ "assign_variables || exit \"${?}\"\n  "), .name .calls d.function,
    .plain " \"$@\" "]

theorem Default.text_marks (d : Default) : markText d.marks = d.text := by
  unfold marks text
  simp only [markText_cons, markText_nil, Mark.text, Use.text, String.append_assoc, String.append_empty]

/-- The assignment of a variable. -/
def Assignment.marks (a : Assignment) : List Mark :=
  [.plain ("  if [ -z " ++ orEmpty ("OVERRIDE_" ++ a.name) ++ " ]; then\n        "), .name .assigns a.name,
    .word a.value, .plain " || exit \"${?}\"\n      fi"]

theorem Assignment.text_marks (a : Assignment) : markText a.marks = a.text := by
  unfold marks text
  simp only [markText_cons, markText_nil, Mark.text, Use.text, String.append_assoc, String.append_empty]

/-- The commands that print variables. -/
def Variable.echoMarks (width : Nat) (v : Variable) : List Mark :=
  Mark.plain ("echo '" ++ v.name ++ String.ofList (List.replicate (width - v.name.length + 1) ' ') ++ ":= \"'") ::
    valueMarks v.shellName ++ [Mark.plain "'\"'"]

theorem Variable.text_echoMarks (width : Nat) (v : Variable) : markText (v.echoMarks width) = v.echoText width := by
  unfold echoMarks echoText
  simp only [markText_cons, markText_append, markText_nil, text_valueMarks, Mark.text, String.append_assoc,
    String.append_empty, List.cons_append]

def Variable.caseMarks (v : Variable) : List Mark :=
  Mark.plain (v.name ++ ")\n      printf \"%s\" ") :: valueMarks v.shellName ++ [Mark.plain "\n      ;;"]

theorem Variable.text_caseMarks (v : Variable) : markText v.caseMarks = v.caseText := by
  unfold caseMarks caseText
  simp only [markText_cons, markText_append, markText_nil, text_valueMarks, Mark.text, String.append_assoc,
    String.append_empty, List.cons_append]

/-- The function that prints the values of variables. -/
def evaluateMarks (sorted inOrder : List Variable) : List Mark :=
  let width := (inOrder.map fun v => v.name.length).foldl max 0
  Mark.plain ("evaluatefn() \x7b\n" ++ r#"  assign_variables || exit "${?}"
  if [ "${#}" = "0" ]; then
    "#) ::
    (if inOrder.isEmpty then [Mark.plain "true"] else joinMarks "\n    " (sorted.map (Variable.echoMarks width))) ++
    Mark.plain r#"
  else
    case "${1}" in
    "# ::
    (if inOrder.isEmpty then [Mark.plain "# No user-declared variables"]
      else joinMarks "\n    " (inOrder.map Variable.caseMarks)) ++
    [Mark.plain (r#"
    *)
      echo_error 'Justfile does not contain variable `'"${1}"'`.'
      exit 1
      ;;
    esac
  fi
"# ++ "\x7d")]

theorem text_evaluateMarks (sorted inOrder : List Variable) :
    markText (evaluateMarks sorted inOrder) = evaluateFunction sorted inOrder := by
  have hechos (width : Nat) : markText ∘ Variable.echoMarks width = Variable.echoText width :=
    funext (Variable.text_echoMarks width)
  have hcases : markText ∘ Variable.caseMarks = Variable.caseText := funext Variable.text_caseMarks
  have hdefine := append_merge (show "evaluatefn" ++ "() \x7b\n" = "evaluatefn() \x7b\n" from rfl)
  unfold evaluateMarks evaluateFunction define
  cases inOrder.isEmpty with
  | true =>
    simp only [markText_cons, markText_append, markText_nil, Mark.text, String.append_assoc, String.append_empty,
      String.empty_append, List.cons_append, if_true, hdefine]
  | false =>
    simp only [markText_cons, markText_append, markText_nil, Mark.text, String.append_assoc, String.append_empty,
      List.cons_append, Bool.false_eq_true, if_false, markText_joinMarks, List.map_map, hechos, hcases, hdefine]

end Script

namespace TestFunction

/-- The command whose success decides. -/
def conditionMarks (f : TestFunction) : List Mark :=
  match f.op with
  | .equal => [.plain "[ ", .word f.left, .plain " = ", .word f.right, .plain " ]"]
  | .unequal => [.plain "[ ", .word f.left, .plain " != ", .word f.right, .plain " ]"]
  | .matching => [.plain "echo ", .word f.left, .plain " \\\n      | grep -E ", .word f.right, .plain " > /dev/null"]

/-- The lines that print the value of a branch. -/
def branchMarks (name : String) (value : Word) : List Mark :=
  [.plain "    ", .name .assigns name, .word value, .plain (" || exit \"${?}\"\n" ++ "    echo "),
    .word (.valueOf name), .plain "\n"]

/-- The function of a conditional. -/
def marks (f : TestFunction) : List Mark :=
  Mark.name .defines f.name :: Mark.plain "  if " :: f.conditionMarks ++
    Mark.plain "; then\n" :: branchMarks "THEN_EXPR" f.yes ++
    Mark.plain "  else\n" :: branchMarks "ELSE_EXPR" f.no ++ [Mark.plain ("  fi\n" ++ "\x7d" ++ "\n")]

theorem text_marks (f : TestFunction) : markText f.marks = f.definition := by
  have hcondition : markText f.conditionMarks = f.condition := by
    unfold conditionMarks condition
    cases f.op <;> simp [Mark.text, String.append_assoc]
  have hbranch (name : String) (value : Word) : markText (branchMarks name value) = branch name value := by
    unfold branchMarks branch
    simp only [markText_cons, markText_nil, Mark.text, Use.text, String.append_assoc, String.append_empty]
  unfold marks definition Builtin.definition define
  simp only [markText_cons, markText_append, markText_nil, hcondition, hbranch, Mark.text, Use.text,
    String.append_assoc, String.append_empty, List.cons_append]

end TestFunction

/-- A function behind expressions. -/
def Helper.marks : Helper → List Mark
  | .test f => f.marks
  | h => [.plain h.definition]

theorem Helper.text_marks (h : Helper) : markText h.marks = h.definition := by
  cases h with
  | builtin definition => simp [marks, Mark.text]
  | backtickError => simp [marks, Mark.text]
  | test f => exact f.text_marks

namespace Script

variable (s : Script)

/-- The section of functions behind expressions. -/
def helperMarks : List Mark :=
  if s.helpers.isEmpty then []
  else Mark.plain ("\n\n" ++ Text.heading "Internal functions" ++ "\n\n") :: joinMarks "\n" (s.helpers.map Helper.marks)

/-- The function that assigns the variables of the justfile. -/
def assignMarks : List Mark :=
  Mark.plain ("assign_variables" ++ "() \x7b\n" ++ "  test -z \"${HAS_RUN_assign_variables:-}\" || return 0\n\n") ::
    (if s.assignments.isEmpty then [Mark.plain "  # No user-declared variables"]
      else joinMarks "\n" (s.assignments.map Assignment.marks)) ++
    [Mark.plain ("\n\n  HAS_RUN_assign_variables=\"true\"\n" ++ "\x7d")]

/-- The section of recipes. -/
def recipeMarks : List Mark :=
  Mark.plain ("\n" ++ Text.heading "Recipes" ++ "\n\n") :: joinMarks "\n\n" (s.entries.map Entry.marks)

/-- The section of functions that every script has. -/
def commonMarks : List Mark :=
  Mark.plain ("\n" ++ Text.heading "Helper functions" ++
      "\n\n# Sane, portable echo that doesn't escape characters like \"\\n\" behind your back\n" ++
      echoFunction ++ "\n\n# realpath is a GNU coreutils extension\n" ++ realpathFunction ++ "\n\n" ++
      errorFunction ++ "\n\n" ++ recipeErrorFunction ++ "\n\n" ++ echoLineFunction ++
      "\n            \n" ++ setVariableFunction ++ "\n            \n" ++
      summaryFunction s.recipes (sortStrings s.recipes) ++ "\n\n" ++
      usageFunction s.version ++ "\n\n" ++ wrongUsageFunction ++ "\n\n" ++
      listFunction s.sortedList s.list ++ "\n\n" ++ dumpFunction s.justfile ++ "\n\n") ::
    evaluateMarks s.sortedVariables s.declared ++ [Mark.plain ("\n\n" ++ chooseFunction s.targets)]

/-- The part of the script that reads the arguments. -/
def entryMarks : List Mark :=
  Mark.plain loopStart :: joinMarks "\n\n  " (s.cases.map TargetCase.marks) ++
    Mark.plain (firstOptions ++ s.version ++ lastOptions) :: s.default.elim [Mark.plain noDefaultText] Default.marks ++
    [Mark.plain "\nfi"]

/-- **The marks of a script**, section by section. -/
def marks : List Mark :=
  Mark.plain ("#!/bin/sh\n\n" ++ s.banner ++ "\n\n" ++ strictText) :: s.helperMarks ++
    Mark.plain ("\n\n" ++ (Text.heading "Variables" ++ "\n" ++ (if s.dotenv then dotenvText else "") ++
      "\n# User-overwritable variables (via CLI)\n" ++ tempdirText s.tempdir ++ optionText s.shell s.shellArgs ++
      "\n" ++ colourText ++ "\n")) :: s.assignMarks ++
    Mark.plain "\n\n" :: s.recipeMarks ++ Mark.plain "\n\n" :: s.commonMarks ++
    Mark.plain ("\n\n\n" ++ Text.heading "Main entrypoint" ++ "\n\n") :: s.entryMarks ++
    [Mark.plain ("\n\n\n" ++ s.banner ++ "\n\n")]

theorem text_helperMarks : markText s.helperMarks = s.helperText := by
  have hhelpers : markText ∘ Helper.marks = Helper.definition := funext Helper.text_marks
  unfold helperMarks helperText
  split
  · rfl
  · rw [markText_cons, markText_joinMarks, List.map_map, hhelpers]
    rfl

theorem text_assignMarks : markText s.assignMarks = assignText s.assignments := by
  have hassignments : markText ∘ Assignment.marks = Assignment.text := funext Assignment.text_marks
  unfold assignMarks assignText define
  cases s.assignments.isEmpty with
  | true =>
    simp only [markText_cons, markText_append, markText_nil, Mark.text, String.append_assoc, String.append_empty,
      String.empty_append, List.cons_append, if_true]
  | false =>
    simp only [markText_cons, markText_append, markText_nil, Mark.text, String.append_assoc, String.append_empty,
      List.cons_append, Bool.false_eq_true, if_false, markText_joinMarks, List.map_map, hassignments, lines]

theorem text_recipeMarks : markText s.recipeMarks = s.recipeText := by
  have hentries : markText ∘ Entry.marks = Entry.text := funext Entry.text_marks
  unfold recipeMarks recipeText
  rw [markText_cons, markText_joinMarks, List.map_map, hentries]
  rfl

theorem text_commonMarks : markText s.commonMarks = s.commonText := by
  unfold commonMarks commonText
  simp only [markText_cons, markText_append, markText_nil, text_evaluateMarks, Mark.text, String.append_assoc,
    String.append_empty, List.cons_append]

theorem text_entryMarks : markText s.entryMarks = entryText s.version s.cases s.default := by
  have hcases : markText ∘ TargetCase.marks = TargetCase.text := funext TargetCase.text_marks
  have hdefault : markText (s.default.elim [.plain noDefaultText] Default.marks) =
      s.default.elim noDefaultText Default.text := by
    cases s.default with
    | none => simp [Mark.text]
    | some d => exact d.text_marks
  unfold entryMarks entryText
  simp only [markText_cons, markText_append, markText_nil, markText_joinMarks, List.map_map, hcases, hdefault,
    Mark.text, String.append_assoc, String.append_empty, List.cons_append]

/-- **The marks of a script have its text.** -/
theorem text_marks : markText s.marks = s.text := by
  unfold marks text variableText
  simp only [markText_cons, markText_append, markText_nil, text_helperMarks, text_assignMarks, text_recipeMarks,
    text_commonMarks, text_entryMarks, Mark.text, String.append_assoc, String.append_empty, List.cons_append]

end Script

end Justfile
