import Justfile.Proofs.Naming
import Justfile.Shell.Evaluate

/-!
# Sessions with a table of names

A session is a sequence of namings and evaluations that share one table.

* `evaluate_follows`: the word of an expression is the same function of the names, `wordOf`, at
  whatever time it is asked for.
* `evaluate_registers`: every name in an expression is known once the expression is evaluated.
* `naming_stable`: over a whole session entries stay, and two namings give the same shell name just
  if they are about the same name.
-/

namespace Justfile.Shell

open Names

section Words

variable (σ : String → String)

mutual

/-- The word that has the value of an expression where `σ` gives the shell names. -/
def wordOf : Expr → Except Failure Word
  | .text s => .ok (.literal s)
  | .var name => .ok (.valueOf (σ ("VAR_" ++ name)))
  | .sum left right => do
    let left ← wordOf left
    let right ← wordOf right
    .ok (.append left right)
  | .path left right => do
    let left ← wordOf left
    let right ← wordOf right
    .ok (.append left (.append .slash right))
  | .backtick command => .ok (.command command)
  | .call name args => do
    let args ← wordsOf args
    .ok (.call (σ name) args)
  | .bareCall name => .ok (.call (σ name) [])
  | .cond op left right yes no => .ok (.test (σ (testName (.cond op left right yes no))))
  | .looseCond test yes no => .ok (.test (σ (testName (.looseCond test yes no))))
  | .stray datum => .error (.notAnExpression datum)

/-- The words that have the values of expressions. -/
def wordsOf : List Expr → Except Failure (List Word)
  | [] => .ok []
  | e :: rest => do
    let w ← wordOf e
    let ws ← wordsOf rest
    .ok (w :: ws)

end

end Words

mutual

/-- The names that the evaluation of an expression asks for. -/
def namesIn : Expr → List String
  | .text _ => []
  | .var name => ["VAR_" ++ name]
  | .sum left right => namesIn left ++ namesIn right
  | .path left right => namesIn left ++ namesIn right
  | .backtick _ => []
  | .call name args => namesInAll args ++ [name]
  | .bareCall name => [name]
  | .cond op left right yes no => [testName (.cond op left right yes no)]
  | .looseCond test yes no => [testName (.looseCond test yes no)]
  | .stray _ => []

/-- The names that the evaluation of expressions asks for. -/
def namesInAll : List Expr → List String
  | [] => []
  | e :: rest => namesIn e ++ namesInAll rest

end

mutual

/-- **Evaluation follows the names.** -/
theorem evaluate_follows : ∀ e : Expr, Follows (evaluate e) fun σ => wordOf σ e
  | .text s => by
    simp only [evaluate, wordOf]
    exact .pure (Word.literal s)
  | .var name => by
    simp only [evaluate, wordOf]
    exact (Follows.cleanName ("VAR_" ++ name)).map Word.valueOf
  | .sum left right => by
    have h := (evaluate_follows left).bind fun l => (evaluate_follows right).bind fun r =>
      Follows.pure (Word.append l r)
    simp only [evaluate, wordOf]
    exact h
  | .path left right => by
    have h := (evaluate_follows left).bind fun l => (evaluate_follows right).bind fun r =>
      Follows.pure (Word.append l (.append .slash r))
    simp only [evaluate, wordOf]
    exact h
  | .backtick command => by
    simp only [evaluate, wordOf]
    exact .pure (Word.command command)
  | .call name args => by
    have h := (evaluateAll_follows args).bind fun as => (Follows.cleanName name).bind fun n =>
      Follows.pure (Word.call n as)
    simp only [evaluate, wordOf]
    exact h
  | .bareCall name => by
    have h := (Follows.cleanName name).bind fun n => Follows.pure (Word.call n [])
    simp only [evaluate, wordOf]
    exact h
  | .cond op left right yes no => by
    have h := (Follows.cleanName (testName (.cond op left right yes no))).map Word.test
    simp only [evaluate, wordOf]
    exact h
  | .looseCond test yes no => by
    have h := (Follows.cleanName (testName (.looseCond test yes no))).map Word.test
    simp only [evaluate, wordOf]
    exact h
  | .stray datum => by
    have h := Follows.throw (α := Word) (.notAnExpression datum)
    simp only [evaluate, wordOf]
    exact h

/-- Evaluation of a list follows the names. -/
theorem evaluateAll_follows : ∀ es : List Expr, Follows (evaluateAll es) fun σ => wordsOf σ es
  | [] => by
    have h := Follows.pure (α := List Word) []
    simp only [evaluateAll, wordsOf]
    exact h
  | e :: rest => by
    have h := (evaluate_follows e).bind fun w => (evaluateAll_follows rest).bind fun ws =>
      Follows.pure (w :: ws)
    simp only [evaluateAll, wordsOf]
    exact h

end

mutual

/-- **Every name in an expression is known once the expression is evaluated.** -/
theorem evaluate_registers : ∀ e : Expr, Registers (evaluate e) (namesIn e)
  | .text _ => by rw [namesIn]; exact .nil _
  | .var name => by
    rw [evaluate, namesIn]
    exact (Registers.cleanName ("VAR_" ++ name)).map _
  | .sum left right => by
    rw [evaluate, namesIn]
    exact (evaluate_registers left).bind (fun l => (evaluate_registers right).bind_pure _)
      fun l => ((evaluate_follows right).bind fun r => .pure (Word.append l r)).within
  | .path left right => by
    rw [evaluate, namesIn]
    exact (evaluate_registers left).bind (fun l => (evaluate_registers right).bind_pure _)
      fun l => ((evaluate_follows right).bind fun r =>
        .pure (Word.append l (.append .slash r))).within
  | .backtick _ => by rw [namesIn]; exact .nil _
  | .call name args => by
    rw [evaluate, namesIn]
    exact (evaluateAll_registers args).bind (fun as => (Registers.cleanName name).bind_pure _)
      fun as => ((Follows.cleanName name).bind fun n => .pure (Word.call n as)).within
  | .bareCall name => by
    rw [evaluate, namesIn]
    exact (Registers.cleanName name).bind_pure _
  | .cond op left right yes no => by
    rw [evaluate, namesIn]
    exact (Registers.cleanName _).map _
  | .looseCond test yes no => by
    rw [evaluate, namesIn]
    exact (Registers.cleanName _).map _
  | .stray _ => by rw [namesIn]; exact .nil _

/-- Every name in expressions is known once they are evaluated. -/
theorem evaluateAll_registers : ∀ es : List Expr, Registers (evaluateAll es) (namesInAll es)
  | [] => by rw [namesInAll]; exact .nil _
  | e :: rest => by
    rw [evaluateAll, namesInAll]
    exact (evaluate_registers e).bind (fun w => (evaluateAll_registers rest).bind_pure _)
      fun w => ((evaluateAll_follows rest).bind fun ws => .pure (w :: ws)).within

end

/-- One use of the table. -/
inductive Call where
  /-- A name with a lead before it. -/
  | plain (lead name : String)
  /-- The name of a variable or parameter. -/
  | ofVariable (name : String)
  /-- The name of a recipe or alias. -/
  | ofFunction (name : String)
  /-- An expression to evaluate. -/
  | ofExpr (e : Expr)

/-- What a use of the table gives. -/
inductive Reply where
  | name (shell : String)
  | word (w : Word)

namespace Call

/-- The full name that a naming is about. -/
def fullName? : Call → Option String
  | .plain lead name => some (lead ++ name)
  | .ofVariable name => some ("VAR_" ++ name)
  | .ofFunction name => some ("FUN_" ++ name)
  | .ofExpr _ => none

/-- The names that a use of the table asks for. -/
def names : Call → List String
  | .plain lead name => [lead ++ name]
  | .ofVariable name => ["VAR_" ++ name]
  | .ofFunction name => ["FUN_" ++ name]
  | .ofExpr e => namesIn e

/-- A use of the table. -/
def reply : Call → Naming Reply
  | .plain lead name => .name <$> cleanName (lead ++ name)
  | .ofVariable name => .name <$> cleanVariable name
  | .ofFunction name => .name <$> cleanFunction name
  | .ofExpr e => .word <$> evaluate e

/-- The reply where `σ` gives the shell names. -/
def replyBy (σ : String → String) : Call → Except Failure Reply
  | .plain lead name => .ok (.name (σ (lead ++ name)))
  | .ofVariable name => .ok (.name (σ ("VAR_" ++ name)))
  | .ofFunction name => .ok (.name (σ ("FUN_" ++ name)))
  | .ofExpr e => .word <$> wordOf σ e

theorem reply_follows (c : Call) : Follows c.reply fun σ => c.replyBy σ := by
  cases c with
  | plain lead name => exact (Follows.cleanName (lead ++ name)).map Reply.name
  | ofVariable name => exact (Follows.cleanName ("VAR_" ++ name)).map Reply.name
  | ofFunction name => exact (Follows.cleanName ("FUN_" ++ name)).map Reply.name
  | ofExpr e => exact (evaluate_follows e).map Reply.word

theorem reply_registers (c : Call) : Registers c.reply c.names := by
  cases c with
  | plain lead name => exact (Registers.cleanName (lead ++ name)).map Reply.name
  | ofVariable name => exact (Registers.cleanName ("VAR_" ++ name)).map Reply.name
  | ofFunction name => exact (Registers.cleanName ("FUN_" ++ name)).map Reply.name
  | ofExpr e => exact (evaluate_registers e).map Reply.word

/-- A naming gives the shell name of its full name. -/
theorem of_fullName? {c : Call} {n : String} (h : c.fullName? = some n) :
    c.names = [n] ∧ ∀ σ, c.replyBy σ = .ok (.name (σ n)) := by
  cases c with
  | plain lead name => cases h; exact ⟨rfl, fun _ => rfl⟩
  | ofVariable name => cases h; exact ⟨rfl, fun _ => rfl⟩
  | ofFunction name => cases h; exact ⟨rfl, fun _ => rfl⟩
  | ofExpr e => cases h

end Call

/-- The table after a sequence of uses. -/
def tableAfter (calls : List Call) (t : Names) : Names :=
  calls.foldl (fun t c => c.reply.table t) t

theorem tableAfter_ofExpr (e : Expr) (rest : List Call) (t : Names) :
    tableAfter (.ofExpr e :: rest) t = tableAfter rest ((evaluate e).table t) := by
  rw [tableAfter, List.foldl_cons, Call.reply, Naming.table_map]
  rfl

/-- The replies to a sequence of uses. -/
def replies : List Call → Names → List (Call × Except Failure Reply)
  | [], _ => []
  | c :: rest, t => (c, c.reply.result t) :: replies rest (c.reply.table t)

theorem within_tableAfter (calls : List Call) : ∀ t, Within t (tableAfter calls t) := by
  induction calls with
  | nil => exact Within.refl
  | cons c rest ih => exact fun t => (c.reply_follows.within t).trans (ih _)

theorem Names.Settled.tableAfter (calls : List Call) :
    ∀ t, Settled t → Settled (tableAfter calls t) := by
  induction calls with
  | nil => exact fun _ ht => ht
  | cons c rest ih => exact fun t ht => ih _ (c.reply_follows.settled t ht)

theorem tableAfter_append (before after : List Call) (t : Names) :
    tableAfter (before ++ after) t = tableAfter after (tableAfter before t) :=
  List.foldl_append

/-- **All replies of a session are those for the names at its end.** -/
theorem replies_eq {u : Names} (hu : Settled u) (calls : List Call) :
    ∀ t, Within (tableAfter calls t) u →
      replies calls t = calls.map fun c => (c, c.replyBy u.shellName) := by
  induction calls with
  | nil => exact fun _ _ => rfl
  | cons c rest ih =>
    intro t h
    -- what comes after this use only adds entries, so `u` has all that the use leaves
    have hc := c.reply_follows.result t u hu ((within_tableAfter rest _).trans h)
    rw [replies, List.map_cons, hc, ih _ h]

/-- The names that a session asked for successfully are known at its end. -/
theorem knows_of_mem_replies (calls : List Call) :
    ∀ t c r, (c, .ok r) ∈ replies calls t → ∀ n ∈ c.names, Knows (tableAfter calls t) n := by
  induction calls with
  | nil => exact fun _ _ _ h => absurd h List.not_mem_nil
  | cons d rest ih =>
    intro t c r h n hn
    rcases List.mem_cons.1 h with h | h
    · obtain ⟨rfl, hr⟩ := Prod.mk.inj h
      exact (within_tableAfter rest _).knows (c.reply_registers t r hr.symm n hn)
    · exact ih _ c r h n hn

/-- A naming in a session succeeds, and at the end its shell name stands for its full name. -/
theorem naming_replies {calls : List Call} {c : Call} {r : Except Failure Reply} {n : String}
    (h : (c, r) ∈ replies calls .empty) (hn : c.fullName? = some n) :
    ∃ s, r = .ok (.name s) ∧ (tableAfter calls .empty).find? s = some n := by
  have hu : Settled (tableAfter calls .empty) := settled_empty.tableAfter calls
  obtain ⟨hnames, hby⟩ := Call.of_fullName? hn
  have hr : r = c.replyBy (tableAfter calls .empty).shellName := by
    rw [replies_eq hu calls .empty (.refl _)] at h
    obtain ⟨d, -, hd⟩ := List.mem_map.1 h
    obtain ⟨rfl, rfl⟩ := Prod.mk.inj hd
    rfl
  rw [hby] at hr
  subst hr
  have hk := knows_of_mem_replies calls .empty c _ h n (by simp [hnames])
  exact ⟨_, rfl, hu.find?_shellName hk⟩

/-- **The table of names is a stable injection over every session.** No entry is removed or changed.
Every naming succeeds, and two namings anywhere give the same shell name just if their full names
are the same; a variable and a recipe never share one. The names inside evaluated expressions are
those of the same table, which has one shell name for each name. -/
theorem naming_stable (calls : List Call) :
    (∀ before after, calls = before ++ after →
      Within (tableAfter before .empty) (tableAfter calls .empty)) ∧
    (∀ c r n, (c, r) ∈ replies calls .empty → c.fullName? = some n →
      ∃ s, r = .ok (.name s) ∧ (tableAfter calls .empty).find? s = some n) ∧
    (∀ c₁ c₂ s₁ s₂ n₁ n₂, (c₁, .ok (.name s₁)) ∈ replies calls .empty →
      (c₂, .ok (.name s₂)) ∈ replies calls .empty → c₁.fullName? = some n₁ →
      c₂.fullName? = some n₂ → (s₁ = s₂ ↔ n₁ = n₂)) ∧
    (∀ v f s₁ s₂, (.ofVariable v, .ok (.name s₁)) ∈ replies calls .empty →
      (.ofFunction f, .ok (.name s₂)) ∈ replies calls .empty → s₁ ≠ s₂) ∧
    (∀ e w, (.ofExpr e, .ok (.word w)) ∈ replies calls .empty →
      wordOf (tableAfter calls .empty).shellName e = .ok w ∧
      ∀ n ∈ namesIn e, (tableAfter calls .empty).find?
        ((tableAfter calls .empty).shellName n) = some n) ∧
    (∀ s₁ s₂ n₁ n₂, (tableAfter calls .empty).find? s₁ = some n₁ →
      (tableAfter calls .empty).find? s₂ = some n₂ → (s₁ = s₂ ↔ n₁ = n₂)) := by
  have hu : Settled (tableAfter calls .empty) := settled_empty.tableAfter calls
  have hiff : ∀ c₁ c₂ s₁ s₂ n₁ n₂, (c₁, .ok (.name s₁)) ∈ replies calls .empty →
      (c₂, .ok (.name s₂)) ∈ replies calls .empty → c₁.fullName? = some n₁ →
      c₂.fullName? = some n₂ → (s₁ = s₂ ↔ n₁ = n₂) := by
    intro c₁ c₂ s₁ s₂ n₁ n₂ h₁ h₂ hn₁ hn₂
    obtain ⟨_, ⟨⟩, hs₁⟩ := naming_replies h₁ hn₁
    obtain ⟨_, ⟨⟩, hs₂⟩ := naming_replies h₂ hn₂
    exact hu.eq_iff hs₁ hs₂
  refine ⟨?_, fun _ _ _ => naming_replies, hiff, ?_, ?_, fun _ _ _ _ => hu.eq_iff⟩
  · rintro before after rfl
    rw [tableAfter_append]
    exact within_tableAfter after _
  · intro v f s₁ s₂ h₁ h₂ hs
    have hne := (hiff _ _ _ _ _ _ h₁ h₂ rfl rfl).1 hs
    -- the full names differ in their first character
    have := congrArg (fun s : String => s.toList.head?) hne
    simp at this
  · intro e w h
    refine ⟨?_, fun n hn => hu.find?_shellName (knows_of_mem_replies calls .empty _ _ h n hn)⟩
    rw [replies_eq hu calls .empty (.refl _)] at h
    obtain ⟨d, -, hd⟩ := List.mem_map.1 h
    obtain ⟨rfl, hw⟩ := Prod.mk.inj hd
    simp only [Call.replyBy] at hw
    cases hr : wordOf (tableAfter calls .empty).shellName e with
    | error f => rw [hr] at hw; cases hw
    | ok w' => rw [hr] at hw; cases hw; rfl

/-- A session in which three names compete for `a_b` and `a_b_2`. -/
def rivals : List Call :=
  [.plain "" "a-b", .ofFunction "a-b", .plain "a_" "b", .plain "" "a_b_2",
    .ofExpr (.sum (.var "a-b") (.var "a_b")), .plain "a" "-b"]

theorem naming_stable_rivals :
    (Call.plain "" "a-b", Except.ok (Reply.name "a_b")) ∈ replies rivals .empty ∧
    (Call.plain "a_" "b", Except.ok (Reply.name "a_b_2")) ∈ replies rivals .empty ∧
    (Call.plain "a" "-b", Except.ok (Reply.name "a_b")) ∈ replies rivals .empty ∧
    (("a_b" = "a_b_2") ↔ ("a-b" = "a_b")) ∧ (("a_b" = "a_b") ↔ ("a-b" = "a-b")) := by
  have h₁ : (Call.plain "" "a-b", Except.ok (Reply.name "a_b")) ∈ replies rivals .empty := .head _
  have h₂ : (Call.plain "a_" "b", Except.ok (Reply.name "a_b_2")) ∈ replies rivals .empty :=
    .tail _ (.tail _ (.head _))
  have h₃ : (Call.plain "a" "-b", Except.ok (Reply.name "a_b")) ∈ replies rivals .empty :=
    .tail _ (.tail _ (.tail _ (.tail _ (.tail _ (.head _)))))
  have h := (naming_stable rivals).2.2.1
  exact ⟨h₁, h₂, h₃, h _ _ _ _ _ _ h₁ h₂ rfl rfl, h _ _ _ _ _ _ h₁ h₃ rfl rfl⟩

end Justfile.Shell
