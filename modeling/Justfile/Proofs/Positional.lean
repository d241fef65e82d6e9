import Justfile.Script.Function
import Mathlib.Data.List.Basic

/-!
# Commands on arguments

The functions of a script and its loop over the command line pass arguments on, drop them and take them
into variables. The commands that do this are a small part of the shell's language. Here they are
written and run.

* `Condition`, `Command`, `Statement`: conditions on the arguments, simple commands, and the choice
  between lists of commands. All commands that have nothing to do with arguments are `plain` texts.
* `blockText`: the lines of statements.
* `runBlock`: what statements do to the arguments, which variables they assign, which functions they
  call with which arguments, and how they end. `World` is what the arguments do not determine.
* `inOrder_append`: statements one after the other.
* `dropping`: the statement that drops arguments, as far as there are any.
-/

namespace Justfile.Shell

/-- A condition on the number of arguments, or on the output of a function. -/
inductive Condition where
  /-- There are fewer arguments than `count`. -/
  | fewer (count : Nat) (quoted : Bool)
  /-- There are `count` arguments or more. -/
  | atLeast (count : Nat) (quoted : Bool)
  /-- There are arguments. -/
  | any
  /-- The function puts out the value. -/
  | answers (function value : String)

/-- A simple command. -/
inductive Command where
  /-- Drops the first argument. -/
  | shift
  /-- Drops the first `count` arguments. -/
  | shiftBy (count : Nat)
  /-- Drops all arguments. -/
  | shiftAll
  /-- Calls a function with all arguments, or with none. -/
  | call (function : String) (forwards : Bool)
  /-- Assigns the argument at a place to a variable. -/
  | take (name : String) (place : Nat)
  /-- Assigns a value to a variable. -/
  | assign (name : String) (value : Word)
  /-- Puts a value in the place of all arguments. -/
  | replace (value : Word)
  /-- Assigns all arguments to a variable. -/
  | takeAll (name : String)
  /-- Leaves the loop over the command line. -/
  | leave
  /-- Ends the script. -/
  | exit
  /-- Anything else. -/
  | plain (text : String)

/-- A command, or the commands of the first condition that holds. -/
inductive Statement where
  | one (c : Command)
  | choose (first : Condition × List Command) (more : List (Condition × List Command))
      (otherwise : List Command)

section Text

/-- A number in a condition. -/
@[simp] def numberText (n : Nat) (quoted : Bool) : String :=
  if quoted then "\"" ++ toString n ++ "\"" else toString n

/-- The text of a condition. -/
@[simp] def Condition.text : Condition → String
  | .fewer n quoted => "[ \"${#}\" -lt " ++ numberText n quoted ++ " ]"
  | .atLeast n quoted => "[ \"${#}\" -ge " ++ numberText n quoted ++ " ]"
  | .any => "[ \"${#}\" -gt 0 ]"
  | .answers function value => "[ \"$(" ++ function ++ ")\" = '" ++ value ++ "' ]"

/-- The text of a command. -/
@[simp] def Command.text : Command → String
  | .shift => "shift"
  | .shiftBy n => "shift " ++ toString n
  | .shiftAll => "shift \"${#}\""
  | .call function forwards => function ++ if forwards then " \"$@\"" else ""
  | .take name place => name ++ "=" ++ orEmpty (toString place)
  | .assign name value => name ++ "=" ++ value.text
  | .replace value => "set -- " ++ value.text
  | .takeAll name => name ++ "=\"${*:-}\""
  | .leave => "break"
  | .exit => "exit 1"
  | .plain text => text

/-- The lines of commands. -/
@[simp] def commandText (indent : String) (cs : List Command) : String :=
  lines (cs.map fun c => indent ++ c.text)

/-- A condition after the word that starts it, and its commands. -/
@[simp] def branchText (indent word : String) (b : Condition × List Command) : String :=
  indent ++ word ++ " " ++ b.1.text ++ "; then\n" ++ commandText (indent ++ "  ") b.2

/-- The lines of a statement. -/
@[simp] def Statement.text (indent : String) : Statement → String
  | .one c => indent ++ c.text
  | .choose first more otherwise =>
    lines (branchText indent "if" first :: more.map (branchText indent "elif")) ++
      (if otherwise.isEmpty then "" else "\n" ++ indent ++ "else\n" ++
        commandText (indent ++ "  ") otherwise) ++
      "\n" ++ indent ++ "fi"

/-- The lines of statements. -/
def blockText (indent : String) (ss : List Statement) : String :=
  lines (ss.map (Statement.text indent))

@[simp] theorem lines_singleton (a : String) : lines [a] = a := by
  simp [lines]

@[simp] theorem lines_cons_cons (a b : String) (rest : List String) :
    lines (a :: b :: rest) = a ++ "\n" ++ lines (b :: rest) := by
  simp [lines, String.intercalate_cons_cons]

theorem lines_append {as bs : List String} (ha : as ≠ []) (hb : bs ≠ []) :
    lines (as ++ bs) = lines as ++ "\n" ++ lines bs := by
  induction as with
  | nil => exact absurd rfl ha
  | cons a as ih =>
    obtain ⟨b, bs, rfl⟩ := List.exists_cons_of_ne_nil hb
    cases as with
    | nil => rw [List.singleton_append, lines_cons_cons, lines_singleton]
    | cons a' as =>
      rw [List.cons_append, List.cons_append, lines_cons_cons, ← List.cons_append,
        ih (List.cons_ne_nil _ _), lines_cons_cons]
      simp only [String.append_assoc]

/-- Two literals that meet where texts are put together are one. -/
theorem append_merge {a b c : String} (h : a ++ b = c) (x : String) : a ++ (b ++ x) = c ++ x := by
  rw [← String.append_assoc, h]

end Text

section Run

/-- What conditions and words are decided by besides the arguments: the outputs of functions and the
values of words. -/
structure World where
  output : String → String
  value : Word → String

/-- A run up to some command: the arguments that are left, the variables assigned and the functions
called, in order. -/
structure Frame where
  args : List String
  assigned : List (String × String)
  calls : List (String × List String)

/-- The start of a run. -/
def Frame.start (args : List String) : Frame := ⟨args, [], []⟩

/-- How a run goes on: with the next command, after the loop, or not at all. -/
inductive Flow where
  | next
  | left
  | ended
  deriving DecidableEq

variable (w : World)

/-- Whether a condition holds. -/
@[simp] def Condition.holds (args : List String) : Condition → Bool
  | .fewer n _ => args.length < n
  | .atLeast n _ => n ≤ args.length
  | .any => 0 < args.length
  | .answers function value => w.output function == value

/-- The run of a command. Arguments that are not there cannot be dropped. -/
@[simp] def Command.run (r : Frame) : Command → Frame × Flow
  | .shift => if 1 ≤ r.args.length then ({ r with args := r.args.drop 1 }, .next) else (r, .ended)
  | .shiftBy n => if n ≤ r.args.length then ({ r with args := r.args.drop n }, .next) else (r, .ended)
  | .shiftAll => ({ r with args := [] }, .next)
  | .call function forwards =>
    ({ r with calls := r.calls ++ [(function, if forwards then r.args else [])] }, .next)
  | .take name place =>
    ({ r with assigned := r.assigned ++ [(name, r.args.getD (place - 1) "")] }, .next)
  | .assign name value => ({ r with assigned := r.assigned ++ [(name, w.value value)] }, .next)
  | .replace value => ({ r with args := [w.value value] }, .next)
  | .takeAll name => ({ r with assigned := r.assigned ++ [(name, " ".intercalate r.args)] }, .next)
  | .leave => (r, .left)
  | .exit => (r, .ended)
  | .plain _ => (r, .next)

/-- Runs one after the other, until one does not go on with the next. -/
@[simp] def inOrder {α : Type} (run : Frame → α → Frame × Flow) (r : Frame) : List α → Frame × Flow
  | [] => (r, .next)
  | a :: rest =>
    match run r a with
    | (r', .next) => inOrder run r' rest
    | stop => stop

/-- The run of commands. -/
@[simp] def runCommands : Frame → List Command → Frame × Flow :=
  inOrder (Command.run w)

/-- The commands that are chosen. -/
@[simp] def chosen (args : List String) (otherwise : List Command) : List (Condition × List Command) → List Command
  | [] => otherwise
  | b :: rest => if b.1.holds w args then b.2 else chosen args otherwise rest

/-- The run of a statement. -/
@[simp] def Statement.run (r : Frame) : Statement → Frame × Flow
  | .one c => c.run w r
  | .choose first more otherwise => runCommands w r (chosen w r.args otherwise (first :: more))

/-- The run of statements. -/
def runBlock : Frame → List Statement → Frame × Flow :=
  inOrder (Statement.run w)

variable {α : Type} {run : Frame → α → Frame × Flow}

/-- A run goes on where its first part ends. -/
theorem inOrder_append (r : Frame) (as bs : List α) :
    inOrder run r (as ++ bs) =
      match inOrder run r as with
      | (r', .next) => inOrder run r' bs
      | stop => stop := by
  -- the frame changes with each step of the first part; where this part stops, the whole does
  induction as generalizing r with
  | nil => rfl
  | cons a as ih =>
    rw [List.cons_append, inOrder, inOrder]
    split
    · rename_i r' heq
      exact ih r'
    · rename_i stop hstop
      split
      · rename_i r' heq
        exact absurd heq (hstop r')
      · rfl

theorem inOrder_append_next {r r' : Frame} {as : List α} (h : inOrder run r as = (r', .next)) (bs : List α) :
    inOrder run r (as ++ bs) = inOrder run r' bs := by
  rw [inOrder_append, h]

theorem inOrder_append_ended {r r' : Frame} {as : List α} (h : inOrder run r as = (r', .ended)) (bs : List α) :
    inOrder run r (as ++ bs) = (r', .ended) := by
  rw [inOrder_append, h]

end Run

/-- The statement that drops the first arguments, or all if there are fewer. -/
def dropping (count : Nat) (quoted : Bool) : Statement :=
  .choose (.atLeast count quoted, [.shiftBy count]) [(.any, [.shiftAll])] []

/-- **Arguments are dropped as far as there are any.** -/
theorem run_dropping (w : World) (r : Frame) (count : Nat) (quoted : Bool) :
    (dropping count quoted).run w r = ({ r with args := r.args.drop count }, .next) := by
  obtain ⟨args, assigned, calls⟩ := r
  by_cases hge : count ≤ args.length
  · simp [dropping, hge]
  · -- too few for a shift by the count, which would fail: all are dropped, if there are any
    have hdrop : args.drop count = [] := List.drop_eq_nil_of_le (by omega)
    by_cases hany : 0 < args.length
    · simp [dropping, hge, hany, hdrop]
    · have hnil : args = [] := List.length_eq_zero_iff.1 (by omega)
      have hcount : count ≠ 0 := fun h => hge (h ▸ Nat.zero_le _)
      subst hnil
      simp [dropping, hcount]

end Justfile.Shell
