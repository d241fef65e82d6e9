import Justfile.Proofs.Progress
import Justfile.Proofs.Shape

/-!
# Reading a justfile terminates

The grammar repeats parsers and calls its own rules again. Every parser that it repeats reads something
whenever it succeeds, so a repetition ends before it runs out of rounds. The rules of expressions call
each other without having read anything only from a test or an argument to an expression, and from there to
a conditional. So a rule is entered again only at a later place, and a depth of nesting beyond the length of
the text plays no part.

* `Grammar.step`: the rules of expressions, with the parsers for the rules that they call.
* `Rule.callsHere`: which rules a rule calls where it starts. `step_later`: all others later.
* `solution`: the only grammar that its own rules give back. `bounded_alike`: a bound on the depth
  does not change it on texts that are shorter than the bound.
* `Repetitions`: the parsers that are repeated go forward.
* `file_alike`: a justfile is read the same with all depths that are beyond its length.
-/

namespace Justfile.Parsing

open Justfile.Parsing.Parser

variable {ω : Type} {F : Cursor → String → Prop} {n : Nat}

theorem anyChar_alike : Alike F n 1 (anyChar : Parser ω Char) anyChar := .satisfy _

theorem escape_alike : Alike F n 1 (escape : Parser ω Char) escape := by
  have hword : ∀ (s : String) (c : Char), s.toList ≠ [] →
      Alike F n 1 ((fun _ => c) <$> word s : Parser ω Char) ((fun _ => c) <$> word s) :=
    fun s c hs => .map (.word hs) _
  exact .orElse (hword _ _ (by decide)) <| .orElse (hword _ _ (by decide)) <|
    .orElse (hword _ _ (by decide)) <| .orElse (hword _ _ (by decide)) (hword _ _ (by decide))

theorem between_alike {mark : String} (h : mark.toList ≠ []) :
    Alike F n 1 (between mark : Parser ω (List Char)) (between mark) := by
  refine .bind (.word h) fun _ => ?_
  refine .bind (.untilEnd anyChar_alike (.word h) 0) fun _ => ?_
  exact .bind (.weaken (.word h)) fun _ => .pure _

theorem cookedBetween_alike {mark : String} (h : mark.toList ≠ []) :
    Alike F n 1 (cookedBetween mark : Parser ω (List Char)) (cookedBetween mark) := by
  refine .bind (.word h) fun _ => ?_
  refine .bind (.untilEnd (.orElse escape_alike anyChar_alike) (.word h) 0) fun _ => ?_
  exact .bind (.weaken (.word h)) fun _ => .pure _

variable [Listener ω]

theorem newline_alike : Alike F n 1 (newline : Parser ω String) newline :=
  .traced (.orElse (.word (by decide)) (.word (by decide)))

theorem comment_alike : Alike F n 1 (comment : Parser ω Declaration) comment := by
  refine .traced (.bind (.spaced (.word (by decide))) fun _ => ?_)
  refine .bind (.weaken (.satisfy _)) fun _ => ?_
  exact .bind (.untilEnd anyChar_alike newline_alike 0) fun _ => .pure _

theorem lineEnd_alike : Alike F n 1 (lineEnd : Parser ω Datum) lineEnd := by
  refine .traced (.orElse ?_ (.map (.many1 newline_alike) _))
  exact .bind comment_alike fun _ => .bind (.weaken newline_alike) fun _ => .pure _

theorem indentation_alike : Alike F n 1 (indentation : Parser ω String) indentation :=
  .traced (.orElse (.word (by decide)) (.orElse (.word (by decide)) (.word (by decide))))

theorem name_alike : Alike F n 1 (name : Parser ω String) name :=
  .traced (.map (.span _ _) _)

theorem stringLiteral_alike : Alike F n 1 (stringLiteral : Parser ω String) stringLiteral := by
  refine .traced (.orElse (.traced (.map (cookedBetween_alike (by decide)) _)) ?_)
  refine .orElse (.traced (.map (cookedBetween_alike (by decide)) _)) ?_
  refine .orElse (.traced (.map (between_alike (by decide)) _)) ?_
  exact .traced (.map (between_alike (by decide)) _)

theorem indentedBacktick_alike : Alike F n 1 (indentedBacktick : Parser ω Expr) indentedBacktick :=
  .traced (.map (between_alike (by decide)) _)

theorem backtick_alike : Alike F n 1 (backtick : Parser ω Expr) backtick :=
  .traced (.map (between_alike (by decide)) _)

/-- The rules of expressions that are entered again inside what they read. -/
inductive Rule where
  | expression
  | conditional
  | test
  | arguments
  deriving DecidableEq

namespace Rule

/-- What a rule reads. -/
@[reducible] def Value : Rule → Type
  | expression => Expr
  | conditional => Expr
  | test => Test
  | arguments => List Expr

/-- How many characters a rule takes at least. -/
def least : Rule → Nat
  | expression => 1
  | conditional => 1
  | test => 1
  | arguments => 0

/-- The rules that a rule calls at the place where it starts. -/
def callsHere : Rule → List Rule
  | expression => [conditional]
  | conditional => []
  | test => [expression]
  | arguments => [expression]

/-- How many calls can follow each other without reading. -/
def height : Rule → Nat
  | conditional => 0
  | expression => 1
  | test => 2
  | arguments => 2

theorem height_lt {r r' : Rule} (h : r' ∈ r.callsHere) : r'.height < r.height := by
  cases r with
  | conditional => cases h
  | expression | test | arguments =>
    rw [callsHere, List.mem_singleton] at h
    rw [h]
    decide

/-- No rule comes back to itself without reading. -/
theorem not_callsHere_self (r : Rule) : ¬ Relation.TransGen (fun a b => b ∈ a.callsHere) r r := by
  have hheight : ∀ a b, Relation.TransGen (fun a b : Rule => b ∈ a.callsHere) a b → b.height < a.height := by
    intro a b h
    induction h with
    | single h => exact height_lt h
    | tail _ h ih => exact Nat.lt_trans (height_lt h) ih
  intro h
  exact Nat.lt_irrefl _ (hheight r r h)

end Rule

/-- A parser for each rule. -/
def Grammar (ω : Type) : Type := (r : Rule) → Parser ω r.Value

namespace Grammar

variable (g : Grammar ω)

def call : Parser ω Expr := do
  let f ← name
  let _ ← word "("
  let args ← optional (spread (g .arguments))
  let _ ← word ")"
  return match args with
    | some args => .call f args
    | none => .bareCall f

def value : Parser ω Expr :=
  traced "value"
    (g.call <|> parenthesized (g .expression) <|> indentedBacktick <|> backtick <|>
      .text <$> stringLiteral <|> .var <$> name)

def path : Parser ω Expr := do
  let left ← optional g.value
  let _ ← spread (word "/")
  let right ← g .expression
  return .path (left.getD (.text "")) right

def sum : Parser ω Expr := do
  let left ← g.value
  let _ ← spread (word "+")
  let right ← g .expression
  return .sum left right

def conditional : Parser ω Expr := do
  let _ ← spread (word "if")
  let test ← g .test
  let _ ← spread (word "\x7b")
  let yes ← g .expression
  let _ ← spread (word "\x7d")
  let _ ← spread (word "else")
  let no ← g .conditional <|> (do
    let _ ← spread (word "\x7b")
    let e ← spread (g .expression)
    let _ ← spaced (word "\x7d")
    return e)
  return .cond test.op test.left test.right yes no

/-- An expression, with a parser for conditionals that start where it starts. -/
def expression (chained : Parser ω Expr) : Parser ω Expr :=
  traced "expression" (chained <|> g.path <|> g.sum <|> g.value)

/-- The rules, each with the parsers for the rules that it calls. -/
def step : Grammar ω
  | .expression => g.expression (g .conditional)
  | .conditional => g.conditional
  | .test => testRule (g .expression)
  | .arguments => Parsing.arguments (g .expression)

end Grammar

section Later

variable {g g' : Grammar ω}

theorem testRule_alike {p q : Parser ω Expr} (h : Alike F n 1 p q) :
    Alike F n 1 (testRule p) (testRule q) := by
  have hwith : ∀ op : Comparison, Alike F n 1 (testWith p op) (testWith q op) := by
    intro op
    refine .bind h fun _ => .bind (.weaken (.spread (.wordLength _))) fun _ => ?_
    exact .bind h.weaken fun _ => .pure _
  exact .traced (.orElse (hwith _) (.orElse (hwith _) (hwith _)))

theorem arguments_alike {p q : Parser ω Expr} (h : Alike F n 1 p q) :
    Alike F n 0 (arguments p) (arguments q) := by
  have hcomma : Alike F n 1 (spread (word ",") : Parser ω String) (spread (word ",")) :=
    .spread (.word (by decide))
  exact .traced (.bind (.sepBy h.spread hcomma) fun _ => .bind hcomma.optional fun _ => .pure _)

variable (hg : ∀ r, Alike F n r.least (g r) (g' r))

include hg

theorem value_later : Alike F (n + 1) 1 g.value g'.value := by
  have hcall : Alike F (n + 1) 1 g.call g'.call := by
    refine .later name_alike fun _ => .bind (.weaken (.word (by decide))) fun _ => ?_
    refine .bind (.optional (.spread (hg .arguments))) fun _ => ?_
    exact .bind (.weaken (.word (by decide))) fun _ => .pure _
  have hparens : Alike F (n + 1) 1 (parenthesized (g .expression)) (parenthesized (g' .expression)) := by
    refine .later (.word (by decide)) fun _ => .bind (.weaken (.spread (hg .expression))) fun _ => ?_
    exact .bind (.weaken (.word (by decide))) fun _ => .pure _
  refine .traced (.orElse hcall (.orElse hparens (.orElse indentedBacktick_alike (.orElse backtick_alike ?_))))
  exact .orElse (.map stringLiteral_alike _) (.map name_alike _)

omit [Listener ω] in
theorem conditional_later : Alike F (n + 1) 1 g.conditional g'.conditional := by
  have hexpr : Alike F n 0 (g .expression) (g' .expression) := (hg .expression).weaken
  have hbrace : Alike F n 0 (spread (word "\x7b") : Parser ω String) (spread (word "\x7b")) :=
    .weaken (.spread (.word (by decide)))
  refine .later (.spread (.word (by decide))) fun _ => .bind (hg .test).weaken fun _ => ?_
  refine .bind hbrace fun _ => .bind hexpr fun _ => ?_
  refine .bind (.weaken (.spread (.word (by decide)))) fun _ => ?_
  refine .bind (.weaken (.spread (.word (by decide)))) fun _ => ?_
  refine .bind (.orElse (hg .conditional).weaken ?_) fun _ => .pure _
  refine .bind hbrace fun _ => .bind hexpr.spread fun _ => ?_
  exact .bind (.weaken (.spaced (.word (by decide)))) fun _ => .pure _

/-- Conditionals may start where an expression does; all else that it calls comes later. -/
theorem expression_later {p q : Parser ω Expr} (h : Alike F (n + 1) 1 p q) :
    Alike F (n + 1) 1 (g.expression p) (g'.expression q) := by
  have hexpr : Alike F n 0 (g .expression) (g' .expression) := (hg .expression).weaken
  have hpath : Alike F (n + 1) 1 g.path g'.path := by
    refine .skip (value_later hg).optional fun _ => ?_
    exact .later (.spread (.word (by decide))) fun _ => .bind hexpr fun _ => .pure _
  have hsum : Alike F (n + 1) 1 g.sum g'.sum := by
    refine .later (value_later hg) fun _ => .bind (.weaken (.spread (.word (by decide)))) fun _ => ?_
    exact .bind hexpr fun _ => .pure _
  exact .traced (.orElse h (.orElse hpath (.orElse hsum (value_later hg))))

/-- **A rule calls others later**, apart from those it calls where it starts: if two grammars are alike
on fewer than `n` characters, then on `n` characters only what a rule calls where it starts makes a
difference to it. -/
theorem step_later (r : Rule) (hr : ∀ r' ∈ r.callsHere, Alike F (n + 1) r'.least (g r') (g' r')) :
    Alike F (n + 1) r.least (g.step r) (g'.step r) := by
  cases r with
  | expression => exact expression_later hg (hr .conditional (by decide))
  | conditional => exact conditional_later hg
  | test => exact testRule_alike (hr .expression (by decide))
  | arguments => exact arguments_alike (hr .expression (by decide))

end Later

section Depth

/-- The rules with at most `depth` levels of nesting. -/
def bounded (depth : Nat) : Grammar ω
  | .expression => expression depth
  | .conditional => conditional depth
  | .test => testRule (expression depth)
  | .arguments => arguments (expression depth)

theorem conditional_bounded (depth : Nat) : Grammar.conditional (bounded depth : Grammar ω) =
    conditionalRule (expression depth) (conditional depth) := rfl

theorem expression_bounded (depth : Nat) :
    Grammar.expression (bounded depth : Grammar ω) (conditionalRule (expression depth) (conditional depth)) =
      expressionRule (expression depth) (conditional depth) := rfl

theorem conditional_succ (depth : Nat) :
    (conditional (depth + 1) : Parser ω Expr) = Grammar.conditional (bounded depth) := by
  rw [conditional_bounded]
  exact Parser.eq_of_run fun c t => run_conditional_succ depth c t

theorem expression_succ (depth : Nat) : (expression (depth + 1) : Parser ω Expr) =
    Grammar.expression (bounded depth) (conditional (depth + 1)) := by
  rw [conditional_succ, conditional_bounded, expression_bounded]
  exact Parser.eq_of_run fun c t => run_expression_succ depth c t

/-- Tests and arguments are as alike as the expressions in them. -/
theorem bounded_alike_of {depth depth' : Nat}
    (hexpr : Alike F n 1 (expression depth : Parser ω Expr) (expression depth'))
    (hcond : Alike F n 1 (conditional depth : Parser ω Expr) (conditional depth')) (r : Rule) :
    Alike F n r.least (bounded depth r : Parser ω r.Value) (bounded depth' r) := by
  cases r with
  | expression => exact hexpr
  | conditional => exact hcond
  | test => exact testRule_alike hexpr
  | arguments => exact arguments_alike hexpr

/-- Another level of nesting makes grammars alike on texts with another character. -/
theorem bounded_alike_succ {depth depth' : Nat}
    (hg : ∀ r, Alike F n r.least (bounded depth r : Parser ω r.Value) (bounded depth' r)) (r : Rule) :
    Alike F (n + 1) r.least (bounded (depth + 1) r : Parser ω r.Value) (bounded (depth' + 1) r) := by
  have hcond : Alike F (n + 1) 1 (conditional (depth + 1) : Parser ω Expr) (conditional (depth' + 1)) := by
    rw [conditional_succ, conditional_succ]
    exact conditional_later hg
  have hexpr : Alike F (n + 1) 1 (expression (depth + 1) : Parser ω Expr) (expression (depth' + 1)) := by
    rw [expression_succ, expression_succ]
    exact expression_later hg hcond
  exact bounded_alike_of hexpr hcond r

/-- Below the depths the grammars are alike. -/
theorem bounded_alike {depth depth' : Nat} (h : n ≤ depth) (h' : n ≤ depth') :
    ∀ r, Alike F n r.least (bounded depth r : Parser ω r.Value) (bounded depth' r) := by
  -- the induction is on the length of the text: a level of nesting goes with each character
  induction n generalizing depth depth' with
  | zero => exact fun r c t hc => absurd hc (Nat.not_lt_zero _)
  | succ n ih =>
    obtain ⟨d, rfl⟩ := Nat.exists_eq_add_of_le' (Nat.le_trans (Nat.le_add_left 1 n) h)
    obtain ⟨d', rfl⟩ := Nat.exists_eq_add_of_le' (Nat.le_trans (Nat.le_add_left 1 n) h')
    exact bounded_alike_succ (ih (by omega) (by omega))

/-- With any depth the rules go forward, also on longer texts. -/
theorem bounded_forward (depth : Nat) :
    ∀ n r, Alike F n r.least (bounded depth r : Parser ω r.Value) (bounded depth r) := by
  induction depth with
  | zero =>
    intro n
    refine bounded_alike_of (.self fun c t => ?_) (.self fun c t => ?_)
    · rw [expression_zero]
      exact True.intro
    · rw [conditional_zero]
      exact True.intro
  | succ depth ih => exact fun n r => (bounded_alike_succ (ih n) r).shorten (Nat.le_succ n)

/-- The rules, each with a level of nesting for each character of the text and one more. -/
def solution : Grammar ω :=
  fun r => ⟨fun c t => (bounded (c.rest.length + 1) r).run c t⟩

theorem solution_alike {depth : Nat} (h : n ≤ depth) (r : Rule) :
    Alike F n r.least (solution r : Parser ω r.Value) (bounded depth r) := by
  intro c t hc
  exact bounded_alike (Nat.le_refl _) (by omega) r c t (Nat.lt_succ_self _)

/-- The rules give the solution back. -/
theorem step_solution : (solution : Grammar ω).step = solution := by
  -- one more level of nesting than the text is long is one step from a level for each character
  have halike : ∀ n r, Alike (fun _ _ => False) (n + 1) r.least ((solution : Grammar ω).step r) (solution r) := by
    intro n r
    have hfits := solution_alike (ω := ω) (F := fun _ _ => False) (Nat.le_refl n)
    have hcond : Alike (fun _ _ => False) (n + 1) 1 ((solution : Grammar ω) .conditional)
        (conditional (n + 1)) := solution_alike (Nat.le_refl _) .conditional
    have hexpr : Alike (fun _ _ => False) (n + 1) 1 ((solution : Grammar ω) .expression)
        (expression (n + 1)) := solution_alike (Nat.le_refl _) .expression
    refine Alike.trans ?_ (solution_alike (Nat.le_refl _) r).symm
    cases r with
    | expression =>
      rw [bounded, expression_succ]
      exact expression_later hfits hcond
    | conditional =>
      rw [bounded, conditional_succ]
      exact conditional_later hfits
    | test => exact testRule_alike hexpr
    | arguments => exact arguments_alike hexpr
  funext r
  refine Parser.eq_of_run fun c t => ?_
  exact (halike c.rest.length r c t (Nat.lt_succ_self _)).1

/-- Any two grammars that their rules give back are the same. -/
theorem unique_of_step {g g' : Grammar ω} (h : g.step = g) (h' : g'.step = g') : g = g' := by
  have halike : ∀ n r, Alike (fun _ _ => False) n r.least (g r) (g' r) := by
    intro n
    induction n with
    | zero => exact fun r c t hc => absurd hc (Nat.not_lt_zero _)
    | succ n ih =>
      -- in the order in which rules call each other without reading
      have hstep : ∀ r, (∀ r' ∈ r.callsHere, Alike (fun _ _ => False) (n + 1) r'.least (g r') (g' r')) →
          Alike (fun _ _ => False) (n + 1) r.least (g r) (g' r) := by
        intro r hr
        have halike := step_later ih r hr
        rwa [h, h'] at halike
      have hcond := hstep .conditional fun r' hr' => absurd hr' (List.not_mem_nil)
      have hexpr := hstep .expression fun r' hr' => by
        rw [List.mem_singleton.1 hr']
        exact hcond
      intro r
      cases r with
      | expression => exact hexpr
      | conditional => exact hcond
      | test | arguments =>
        refine hstep _ fun r' hr' => ?_
        rw [List.mem_singleton.1 hr']
        exact hexpr
  funext r
  refine Parser.eq_of_run fun c t => ?_
  exact (halike (c.rest.length + 1) r c t (Nat.lt_succ_self _)).1

end Depth

/-- A recipe as it stands in the text, whether or not it passes its check. -/
def draft (depth : Nat) : Parser ω Recipe := do
  let mute ← optional (spaced (word "@"))
  let n ← spaced name
  let plain ← many (spaced plainParameter)
  let defaulted ← many (spaced (defaultParameter depth))
  let variadic ← optional (spaced (variadicParameter depth))
  let _ ← spaced (word ":")
  let before ← many (spaced (dependency depth))
  let after ← optional (afterDependencies depth)
  let _ ← (fun _ => ()) <$> (lineEnd : Parser ω Datum) <|> (fun _ => ()) <$> blanks
  let lines ← optional (body depth)
  return {
    echo := mute.isNone
    name := n
    parameters := plain ++ defaulted
    variadic := variadic
    before := before
    after := after.getD []
    body := lines.getD [] }

/-- A recipe of this name stands here and does not pass its check. -/
def Faulty (ω : Type) [Listener ω] (depth : Nat) (c : Cursor) (name : String) : Prop :=
  ∃ (r : Recipe) (t : ω) (next : Cursor) (far : Nat) (t' : ω),
    (draft depth).run c t = (.done r next far, t') ∧ r.name = name ∧
      r.check = .error (.variadicNeedsDefault name)

theorem check_eq_error {r : Recipe} {e : Failure} (h : r.check = .error e) :
    r.check = .error (.variadicNeedsDefault r.name) := by
  unfold Recipe.check at h ⊢
  split at h
  · split at h
    · rename_i hbad
      simp only [hbad, if_true]
      rfl
    · cases h
  · cases h

theorem recipe_eq (depth : Nat) : (recipe depth : Parser ω Recipe) = traced "recipe" (do
    let r ← draft depth
    if r.check matches .error _ then reject r.name
    let _ ← many newline
    return r) := by
  refine congrArg (traced "recipe") (Eq.symm ?_)
  -- a draft reads ten parts before the check
  iterate 10 refine (bind_assoc _ _ _).trans (bind_congr fun _ => ?_)
  exact pure_bind _ _

/-- A recipe up to its body. -/
def heading (depth : Nat) : Parser ω Recipe := do
  let mute ← optional (spaced (word "@"))
  let n ← spaced name
  let plain ← many (spaced plainParameter)
  let defaulted ← many (spaced (defaultParameter depth))
  let variadic ← optional (spaced (variadicParameter depth))
  let _ ← spaced (word ":")
  let before ← many (spaced (dependency depth))
  let after ← optional (afterDependencies depth)
  let _ ← (fun _ => ()) <$> (lineEnd : Parser ω Datum) <|> (fun _ => ()) <$> blanks
  return {
    echo := mute.isNone
    name := n
    parameters := plain ++ defaulted
    variadic := variadic
    before := before
    after := after.getD []
    body := [] }

theorem draft_eq (depth : Nat) : (draft depth : Parser ω Recipe) = do
    let r ← heading depth
    let lines ← optional (body depth)
    return { r with body := lines.getD [] } := by
  refine Eq.symm ?_
  -- a heading has nine parts
  iterate 9 refine (bind_assoc _ _ _).trans (bind_congr fun _ => ?_)
  exact pure_bind _ _

/-- What a line has before its end. -/
def lineContent (depth : Nat) : Parser ω Line := do
  let lead ← optional lineLead
  let parts ← many1 (doubledBraces <|> interpolation depth <|> plainText depth)
  return ⟨lead, parts⟩

theorem line_eq (depth : Nat) : (line depth : Parser ω Line) = traced "line" (do
    let l ← lineContent depth
    let _ ← lineEnd
    return l) := by
  refine congrArg (traced "line") (Eq.symm ?_)
  iterate 2 refine (bind_assoc _ _ _).trans (bind_congr fun _ => ?_)
  exact pure_bind _ _

omit [Listener ω] in
theorem exportMark_alike : Alike F n 0 (exportMark : Parser ω Bool) exportMark :=
  .map (.optional (.word (by decide))) _

theorem plainParameter_alike : Alike F n 1 (plainParameter : Parser ω Parameter) plainParameter := by
  refine .traced (.skip exportMark_alike fun _ => .bind name_alike fun _ => ?_)
  exact .bind (.absent (.peek (.spread (.word (by decide))))) fun _ => .pure _

theorem aliasRule_alike : Alike F n 1 (aliasRule : Parser ω Declaration) aliasRule := by
  refine .traced (.bind (.word (by decide)) fun _ => .bind (.weaken (.span _ _)) fun _ => ?_)
  refine .bind name_alike.weaken fun _ => .bind (.weaken (.spread (.word (by decide)))) fun _ => ?_
  exact .bind name_alike.weaken fun _ => .bind lineEnd_alike.weaken fun _ => .pure _

section Settings

theorem switchValue_alike : Alike F n 0 (switchValue : Parser ω SettingValue) switchValue := by
  have hboolean : Alike F n 1 (boolean : Parser ω Bool) boolean := by
    refine .traced (.bind (.spread (.word (by decide))) fun _ => ?_)
    exact .weaken (.orElse (.map (.word (by decide)) _) (.map (.word (by decide)) _))
  exact .map hboolean.optional _

theorem textValue_alike : Alike F n 0 (textValue : Parser ω SettingValue) textValue :=
  .bind (.weaken (.spread (.word (by decide)))) fun _ => .weaken (.map stringLiteral_alike _)

theorem wordsValue_alike : Alike F n 0 (wordsValue : Parser ω SettingValue) wordsValue := by
  have hlist : Alike F n 1 (stringList : Parser ω (List String)) stringList := by
    refine .traced (.bind (.word (by decide)) fun _ => ?_)
    refine .bind (.spread (.sepBy stringLiteral_alike (.spread (.word (by decide))))) fun _ => ?_
    refine .bind (.spread (.optional (.word (by decide)))) fun _ => ?_
    exact .bind (.weaken (.word (by decide))) fun _ => .pure _
  exact .bind (.weaken (.spread (.word (by decide)))) fun _ => .weaken (.map hlist _)

omit [Listener ω] in
theorem settingNamed_alike (s : String) {p : Parser ω SettingValue} (hp : Alike F n 0 p p) :
    Alike F n 1 (settingNamed s p) (settingNamed s p) := by
  refine .bind (.word (by decide)) fun _ => .bind (.weaken (.span _ _)) fun _ => ?_
  exact .bind (.weaken (.spaced (.wordLength s))) fun _ => .bind hp.spaced fun _ => .pure _

theorem setting_alike : Alike F n 1 (setting : Parser ω Declaration) setting := by
  refine .traced (.bind ?_ fun _ => .bind lineEnd_alike.weaken fun _ => .pure _)
  refine .orElse (settingNamed_alike _ switchValue_alike) ?_
  refine .orElse (settingNamed_alike _ switchValue_alike) ?_
  refine .orElse (settingNamed_alike _ switchValue_alike) ?_
  refine .orElse (settingNamed_alike _ switchValue_alike) ?_
  refine .orElse (settingNamed_alike _ switchValue_alike) ?_
  refine .orElse (settingNamed_alike _ switchValue_alike) ?_
  refine .orElse (settingNamed_alike _ switchValue_alike) ?_
  refine .orElse (settingNamed_alike _ textValue_alike) ?_
  exact .orElse (settingNamed_alike _ wordsValue_alike) (settingNamed_alike _ wordsValue_alike)

end Settings

theorem attributeRow_alike : Alike F n 1 (attributeRow : Parser ω (List String)) attributeRow := by
  refine .bind (.spaced (.word (by decide))) fun _ => ?_
  refine .bind (.spread (.sepBy name_alike (.spread (.word (by decide))))) fun _ => ?_
  refine .bind (.spread (.optional (.word (by decide)))) fun _ => ?_
  refine .bind (.weaken (.spaced (.word (by decide)))) fun _ => ?_
  exact .bind lineEnd_alike.weaken fun _ => .pure _

section File

variable {depth depth' : Nat}
  (hg : ∀ r, Alike F n r.least (bounded depth r : Parser ω r.Value) (bounded depth' r))

include hg

theorem expression_alike : Alike F n 1 (expression depth : Parser ω Expr) (expression depth') :=
  hg .expression

theorem value_alike : Alike F n 1 (value depth : Parser ω Expr) (value depth') :=
  (value_later hg).shorten (Nat.le_succ n)

theorem defaultParameter_alike :
    Alike F n 1 (defaultParameter depth : Parser ω Parameter) (defaultParameter depth') := by
  refine .traced (.skip exportMark_alike fun _ => .bind name_alike fun _ => ?_)
  refine .bind (.weaken (.spread (.word (by decide)))) fun _ => ?_
  exact .bind (value_alike hg).weaken fun _ => .pure _

theorem variadicParameter_alike :
    Alike F n 1 (variadicParameter depth : Parser ω Variadic) (variadicParameter depth') := by
  have hparam : Alike F n 0 (anyParameter depth : Parser ω Parameter) (anyParameter depth') :=
    .weaken (.orElse plainParameter_alike (defaultParameter_alike hg))
  refine .traced (.orElse ?_ ?_)
  · exact .bind (.word (by decide)) fun _ => .bind hparam fun _ => .pure _
  · exact .bind (.word (by decide)) fun _ => .bind hparam fun _ => .pure _

theorem dependency_alike : Alike F n 1 (dependency depth : Parser ω Dependency) (dependency depth') := by
  refine .traced (.orElse (.map name_alike _) ?_)
  refine .bind (.word (by decide)) fun _ => .bind (.weaken name_alike) fun _ => ?_
  refine .bind (.many (expression_alike hg).spread) fun _ => ?_
  exact .bind (.weaken (.word (by decide))) fun _ => .pure _

theorem interpolation_alike : Alike F n 1 (interpolation depth : Parser ω Fragment) (interpolation depth') := by
  refine .traced (.bind (.word (by decide)) fun _ => ?_)
  refine .bind (expression_alike hg).spread.weaken fun _ => ?_
  exact .bind (.weaken (.word (by decide))) fun _ => .pure _

theorem plainText_alike : Alike F n 1 (plainText depth : Parser ω Fragment) (plainText depth') := by
  have hend : Alike F n 1 (textEnd depth : Parser ω Unit) (textEnd depth') :=
    .orElse (.map (.map (.word (by decide)) _) _)
      (.orElse (.map (interpolation_alike hg) _) (.map lineEnd_alike _))
  exact .map (.untilEnd (.satisfy _) hend 1) _

theorem piece_alike : Alike F n 1
    (doubledBraces <|> interpolation depth <|> plainText depth : Parser ω Fragment)
    (doubledBraces <|> interpolation depth' <|> plainText depth') :=
  .orElse (.map (.word (by decide)) _) (.orElse (interpolation_alike hg) (plainText_alike hg))

theorem lineContent_alike : Alike F n 1 (lineContent depth : Parser ω Line) (lineContent depth') := by
  have hlead : Alike F n 1 (lineLead : Parser ω String) lineLead :=
    .traced (.orElse (.word (by decide)) (.orElse (.word (by decide))
      (.orElse (.word (by decide)) (.word (by decide)))))
  exact .skip hlead.optional fun _ => .bind (.many1 (piece_alike hg)) fun _ => .pure _

theorem line_alike : Alike F n 1 (line depth : Parser ω Line) (line depth') := by
  rw [line_eq, line_eq]
  exact .traced (.bind (lineContent_alike hg) fun _ => .bind (.weaken lineEnd_alike) fun _ => .pure _)

/-- A line goes on even if its indentation is empty. -/
theorem bodyLine_alike (indent : String) :
    Alike F n 1 (do let _ ← word indent; line depth : Parser ω Line) (do let _ ← word indent; line depth') :=
  .skip (.weaken (.wordLength indent)) fun _ => line_alike hg

theorem body_alike : Alike F n 1 (body depth : Parser ω (List Line)) (body depth') :=
  .traced (.skip (.peek (.many1 indentation_alike)) fun _ => .many1 (bodyLine_alike hg _))

theorem heading_alike : Alike F n 1 (heading depth : Parser ω Recipe) (heading depth') := by
  have hdeps : Alike F n 1 (spaced (dependency depth) : Parser ω Dependency) (spaced (dependency depth')) :=
    (dependency_alike hg).spaced
  have hafter : Alike F n 1 (afterDependencies depth : Parser ω (List Dependency)) (afterDependencies depth') :=
    .bind (.spaced (.word (by decide))) fun _ => hdeps.many1.weaken
  refine .skip (.optional (.spaced (.word (by decide)))) fun _ => .bind (.spaced name_alike) fun _ => ?_
  refine .bind (.many (.spaced plainParameter_alike)) fun _ => ?_
  refine .bind (.many (.spaced (defaultParameter_alike hg))) fun _ => ?_
  refine .bind (.optional (.spaced (variadicParameter_alike hg))) fun _ => ?_
  refine .bind (.weaken (.spaced (.word (by decide)))) fun _ => ?_
  refine .bind hdeps.many fun _ => .bind hafter.optional fun _ => ?_
  exact .bind (.weaken (.orElse (.map lineEnd_alike _) (.map (.span _ _) _))) fun _ => .pure _

theorem draft_alike : Alike F n 1 (draft depth : Parser ω Recipe) (draft depth') := by
  rw [draft_eq, draft_eq]
  exact .bind (heading_alike hg) fun _ => .bind (body_alike hg).optional fun _ => .pure _

theorem assignment_alike :
    Alike F n 1 (assignment depth : Parser ω (String × Expr)) (assignment depth') := by
  refine .tracedBy (.bind (.spaced name_alike) fun _ => ?_)
  refine .bind (.weaken (.spread (.word (by decide)))) fun _ => ?_
  refine .bind (expression_alike hg).spaced.weaken fun _ => ?_
  exact .bind lineEnd_alike.weaken fun _ => .pure _

end File

section Items

variable {depth depth' : Nat}
  (hg : ∀ r, Alike (Faulty ω depth) n r.least (bounded depth r : Parser ω r.Value) (bounded depth' r))

include hg

/-- Only a recipe that does not pass its check ends the parse. -/
theorem recipe_alike :
    Alike (Faulty ω depth) n 1 (recipe depth : Parser ω Recipe) (recipe depth') := by
  rw [recipe_eq, recipe_eq]
  refine .traced fun c t hc => ?_
  -- with the draft the check is the same as well, and the place of a fault is where the draft starts
  obtain ⟨heq, hgo⟩ := draft_alike hg c t hc
  rw [run_bind, run_bind, ← heq]
  rcases hrun : (draft depth).run c t with ⟨o, t₁⟩
  rw [hrun] at hgo
  cases o with
  | done r next far =>
    refine ⟨rfl, ?_⟩
    cases hcheck : r.check with
    | error e =>
      have hfault : r.check = .error (.variadicNeedsDefault r.name) := check_eq_error hcheck
      simp only [hcheck]
      exact ⟨c, .refl c, r, t, next, far, t₁, hrun, rfl, hfault⟩
    | ok u =>
      have hrest : Alike (Faulty ω depth) (next.rest.length + 1) 0
          (do let _ ← many newline; return r : Parser ω Recipe) (do let _ ← many newline; return r) :=
        .bind newline_alike.many fun _ => .pure r
      simp only [hcheck]
      exact (Outcome.Proceeds.after hgo (hrest next t₁ (Nat.lt_succ_self _)).2).join
  | failed far => exact ⟨rfl, True.intro⟩
  | rejected recipe => exact ⟨rfl, hgo⟩

theorem declaration_alike :
    Alike (Faulty ω depth) n 1 (declaration depth : Parser ω Declaration) (declaration depth') := by
  have hexport : Alike (Faulty ω depth) n 1 (exportRule depth : Parser ω Declaration) (exportRule depth') := by
    refine .traced (.bind (.word (by decide)) fun _ => .bind (.weaken (.span _ _)) fun _ => ?_)
    exact .bind (assignment_alike hg).weaken fun _ => .pure _
  refine .orElse (.map (recipe_alike hg) _) (.orElse aliasRule_alike ?_)
  refine .orElse (.map (assignment_alike hg) _) (.orElse hexport (.orElse setting_alike ?_))
  exact .orElse comment_alike (.map lineEnd_alike _)

/-- Attributes may be missing, but what they stand before is not. -/
theorem item_alike : Alike (Faulty ω depth) n 1 (item depth : Parser ω Item) (item depth') := by
  refine .traced (.skip (.optional (.spread (.tracedBy (.map attributeRow_alike.many _)))) fun _ => ?_)
  exact .bind (declaration_alike hg) fun _ => .pure _

theorem file_alike : Alike (Faulty ω depth) n 0 (file depth : Parser ω (List Item)) (file depth') := by
  refine .bind (item_alike hg).many fun _ => .bind lineEnd_alike.many fun _ => ?_
  exact .bind (.traced .eof) fun _ => .pure _

end Items

/-- The parsers that the grammar repeats. Each reads something whenever it succeeds. -/
structure Repetitions (ω : Type) [Listener ω] : Prop where
  newline : Advances 1 (newline : Parser ω String)
  lineEnd : Advances 1 (lineEnd : Parser ω Datum)
  indentation : Advances 1 (indentation : Parser ω String)
  escapedChar : Advances 1 (escape <|> anyChar : Parser ω Char)
  anyChar : Advances 1 (anyChar : Parser ω Char)
  lineChar : Advances 1 (satisfy (fun c => c != '\r' && c != '\n') : Parser ω Char)
  nextString : Advances 1 (do let _ ← spread (word ","); stringLiteral : Parser ω String)
  nextAttribute : Advances 1 (do let _ ← spread (word ","); name : Parser ω String)
  attributeRow : Advances 1 (attributeRow : Parser ω (List String))
  nextArgument : ∀ depth, Advances 1 (do let _ ← spread (word ","); spread (expression depth) : Parser ω Expr)
  dependencyArgument : ∀ depth, Advances 1 (spread (expression depth) : Parser ω Expr)
  plainParameter : Advances 1 (spaced plainParameter : Parser ω Parameter)
  defaultParameter : ∀ depth, Advances 1 (spaced (defaultParameter depth) : Parser ω Parameter)
  dependency : ∀ depth, Advances 1 (spaced (dependency depth) : Parser ω Dependency)
  piece : ∀ depth, Advances 1 (doubledBraces <|> interpolation depth <|> plainText depth : Parser ω Fragment)
  bodyLine : ∀ depth indent, Advances 1 (do let _ ← word indent; line depth : Parser ω Line)
  item : ∀ depth, Advances 1 (item depth : Parser ω Item)

theorem repetitions (ω : Type) [Listener ω] : Repetitions ω := by
  have hforward : ∀ {α : Type} {p q : Parser ω α}, (∀ n, Alike (fun _ _ => False) n 1 p q) → Advances 1 p :=
    .of_alike
  have hcomma : ∀ n, Alike (fun _ _ => False) n 1 (spread (word ",") : Parser ω String) (spread (word ",")) :=
    fun n => .spread (.word (by decide))
  have hg : ∀ depth n r, Alike (fun _ _ => False) n r.least (bounded depth r : Parser ω r.Value) (bounded depth r) :=
    fun depth => bounded_forward depth
  exact {
    newline := hforward fun n => newline_alike
    lineEnd := hforward fun n => lineEnd_alike
    indentation := hforward fun n => indentation_alike
    escapedChar := hforward fun n => .orElse escape_alike anyChar_alike
    anyChar := hforward fun n => anyChar_alike
    lineChar := hforward fun n => .satisfy _
    nextString := hforward fun n => .bind (hcomma n) fun _ => stringLiteral_alike.weaken
    nextAttribute := hforward fun n => .bind (hcomma n) fun _ => name_alike.weaken
    attributeRow := hforward fun n => attributeRow_alike
    nextArgument := fun depth => hforward fun n =>
      .bind (hcomma n) fun _ => (expression_alike (hg depth n)).spread.weaken
    dependencyArgument := fun depth => hforward fun n => (expression_alike (hg depth n)).spread
    plainParameter := hforward fun n => plainParameter_alike.spaced
    defaultParameter := fun depth => hforward fun n => (defaultParameter_alike (hg depth n)).spaced
    dependency := fun depth => hforward fun n => (dependency_alike (hg depth n)).spaced
    piece := fun depth => hforward fun n => piece_alike (hg depth n)
    bodyLine := fun depth indent => hforward fun n => bodyLine_alike (hg depth n) indent
    item := fun depth => .of_alike fun n => item_alike (bounded_forward depth n) }

/-- **Reading a justfile terminates**, whoever listens.

It ends with items, with a place that cannot be read, or with a recipe of the text that does not pass its
check. What the grammar repeats reads something in each round, so the rounds that a repetition is allowed
do not count. A rule of expressions calls others at a later place, apart from a few at its own that never
lead back to it. So the rules have one solution, which any depth beyond the length of the text gives, and the
justfile is read the same with every such depth. -/
theorem read_terminates (ω : Type) [Listener ω] (text : List Char) (t : ω) :
    ((∃ items, (read text t).1 = .ok items) ∨
      (∃ row column, (read text t).1 = .error (.unreadable row column)) ∨
      ∃ name place, (read text t).1 = .error (.variadicNeedsDefault name) ∧
        Ahead 0 ⟨text, 0⟩ place ∧ Faulty ω (text.length + 1) place name) ∧
    Repetitions ω ∧
    (∀ (α β : Type) (p : Parser ω α) (stop : Parser ω β) (least rounds : Nat) (c : Cursor) (t : ω),
      Advances 1 p → c.rest.length < rounds →
        manyLoop p rounds [] 0 c t = (many p).run c t ∧
        untilLoop p stop least rounds 0 [] c t = (untilEnd p stop least).run c t) ∧
    (∀ (g g' : Grammar ω) (n : Nat) (r : Rule),
      (∀ r', Alike (fun _ _ => False) n r'.least (g r') (g' r')) →
      (∀ r' ∈ r.callsHere, Alike (fun _ _ => False) (n + 1) r'.least (g r') (g' r')) →
        Alike (fun _ _ => False) (n + 1) r.least (g.step r) (g'.step r)) ∧
    (∀ r, ¬ Relation.TransGen (fun a b : Rule => b ∈ a.callsHere) r r) ∧
    (∃ g : Grammar ω, (∀ g', g'.step = g' ↔ g' = g) ∧
      ∀ depth r c t, c.rest.length < depth → (bounded depth r).run c t = (g r).run c t) ∧
    ∀ depth, text.length < depth →
      (file depth).run ⟨text, 0⟩ t = (file (text.length + 1)).run ⟨text, 0⟩ t := by
  have hfile : ∀ depth, text.length < depth → Alike (Faulty ω (text.length + 1)) (text.length + 1) 0
      (file (text.length + 1) : Parser ω (List Item)) (file depth) := by
    intro depth hdepth
    exact file_alike (bounded_alike (Nat.le_refl _) hdepth)
  refine ⟨?_, repetitions ω, ?_, fun g g' n r hg hr => step_later hg r hr, Rule.not_callsHere_self, ?_, ?_⟩
  · have hgo := (hfile _ (Nat.lt_succ_self _) ⟨text, 0⟩ t (Nat.lt_succ_self _)).2
    unfold read
    rcases hrun : (file (text.length + 1)).run ⟨text, 0⟩ t with ⟨o, t₁⟩
    rw [hrun] at hgo
    cases o with
    | done items next far => exact .inl ⟨items, rfl⟩
    | failed far => exact .inr (.inl ⟨_, _, rfl⟩)
    | rejected name =>
      obtain ⟨place, hplace, hfaulty⟩ := hgo
      exact .inr (.inr ⟨name, place, rfl, hplace, hfaulty⟩)
  · intro α β p stop least rounds c t hp hrounds
    exact ⟨manyLoop_stable hp _ _ _ _ _ _ hrounds (Nat.lt_succ_self _),
      untilLoop_stable hp stop least _ _ _ _ _ _ hrounds (Nat.lt_succ_self _)⟩
  · refine ⟨solution, fun g => ⟨fun h => unique_of_step h step_solution, fun h => ?_⟩, ?_⟩
    · rw [h]
      exact step_solution
    · intro depth r c t hc
      have halike : Alike (fun _ _ => False) depth r.least (solution r : Parser ω r.Value) (bounded depth r) :=
        solution_alike (Nat.le_refl _) r
      exact (halike c t hc).1.symm
  · intro depth hdepth
    exact (hfile depth hdepth ⟨text, 0⟩ t (Nat.lt_succ_self _)).1.symm

/-- A recipe that needs an argument after one with a default. -/
def variadicText : List Char := "a b='c' *d:\n".toList

theorem read_terminates_variadic :
    (read variadicText ()).1 = .error (.variadicNeedsDefault "a") ∧
    (∃ place, Ahead 0 ⟨variadicText, 0⟩ place ∧ Faulty Unit (variadicText.length + 1) place "a") ∧
    variadicText.length < 100 ∧
    (file 100).run ⟨variadicText, 0⟩ () = (file (variadicText.length + 1)).run ⟨variadicText, 0⟩ () := by
  have hread : (read variadicText ()).1 = .error (.variadicNeedsDefault "a") := by decide +kernel
  have hlength : variadicText.length < 100 := by decide
  obtain ⟨houtcome, -, -, -, -, -, hdepth⟩ := read_terminates Unit variadicText ()
  refine ⟨hread, ?_, hlength, hdepth 100 hlength⟩
  rw [hread] at houtcome
  rcases houtcome with ⟨items, h⟩ | ⟨row, column, h⟩ | ⟨name, place, h, hplace, hfaulty⟩
  · cases h
  · cases h
  · cases h
    exact ⟨place, hplace, hfaulty⟩

end Justfile.Parsing
