import Justfile.Proofs.Progress
import Justfile.Proofs.Shape

/-!
# Who listens does not matter

A parser tells its listener which rules succeeded, but it never asks the listener anything. So a justfile is
read the same with and without a trace.

* `Agree p q`: two parsers for different listeners have the same outcome at each place. There is a rule for each
  combinator.
* `expression_agree`, `declaration_agree`, `file_agree`: the grammar agrees with itself.
* `fst_parseTraced`: the items that are read with a trace are those that are read without.
-/

namespace Justfile.Parsing

open Justfile.Parsing.Parser

variable {ω ω' α β : Type}

/-- Both parsers have the same outcome at each place, whoever listens to one or the other. -/
def Agree (p : Parser ω α) (q : Parser ω' α) : Prop :=
  ∀ c t t', (p.run c t).1 = (q.run c t').1

namespace Agree

variable {p : Parser ω α} {q : Parser ω' α} {f : α → Parser ω β} {g : α → Parser ω' β}

/-- Two parsers that agree end in the same way. -/
theorem outcome (h : Agree p q) (c : Cursor) (t : ω) (t' : ω') :
    ∃ o t₁ t₁', p.run c t = (o, t₁) ∧ q.run c t' = (o, t₁') :=
  ⟨(p.run c t).1, (p.run c t).2, (q.run c t').2, rfl, Prod.ext (h c t t').symm rfl⟩

theorem pure (a : α) : Agree (Pure.pure a : Parser ω α) (Pure.pure a : Parser ω' α) :=
  fun _ _ _ => rfl

theorem reject (recipe : String) : Agree (reject recipe : Parser ω α) (Parser.reject recipe : Parser ω' α) :=
  fun _ _ _ => rfl

theorem bind (hp : Agree p q) (hf : ∀ a, Agree (f a) (g a)) : Agree (p >>= f) (q >>= g) := by
  intro c t t'
  obtain ⟨o, t₁, t₁', hrun, hrun'⟩ := hp.outcome c t t'
  rw [run_bind, run_bind, hrun, hrun']
  cases o with
  | done a next far => exact congrArg (Outcome.join far) (hf a next t₁ t₁')
  | failed far => rfl
  | rejected recipe => rfl

theorem map (hp : Agree p q) (f : α → β) : Agree (f <$> p) (f <$> q) :=
  hp.bind fun a => pure (f a)

theorem orElse {p' : Parser ω α} {q' : Parser ω' α} (hp : Agree p q) (hp' : Agree p' q') :
    Agree (p <|> p') (q <|> q') := by
  intro c t t'
  obtain ⟨o, t₁, t₁', hrun, hrun'⟩ := hp.outcome c t t'
  rw [run_orElse, run_orElse, hrun, hrun']
  cases o with
  | done a next far => rfl
  | failed far => exact congrArg (Outcome.join far) (hp' c t₁ t₁')
  | rejected recipe => rfl

theorem optional (hp : Agree p q) : Agree (Parser.optional p) (Parser.optional q) := by
  intro c t t'
  obtain ⟨o, t₁, t₁', hrun, hrun'⟩ := hp.outcome c t t'
  simp only [Parser.optional, hrun, hrun']
  cases o <;> rfl

theorem peek (hp : Agree p q) : Agree (Parser.peek p) (Parser.peek q) := by
  intro c t t'
  obtain ⟨o, t₁, t₁', hrun, hrun'⟩ := hp.outcome c t t'
  simp only [Parser.peek, hrun, hrun']
  cases o <;> rfl

theorem absent (hp : Agree p q) : Agree (Parser.absent p) (Parser.absent q) := by
  intro c t t'
  obtain ⟨o, t₁, t₁', hrun, hrun'⟩ := hp.outcome c t t'
  simp only [Parser.absent, hrun, hrun']
  cases o <;> rfl

/-- What the listeners are told may differ. -/
theorem tracedBy [Listener ω] [Listener ω'] {rule : String} {data : α → Datum} (hp : Agree p q) :
    Agree (Parser.tracedBy rule data p) (Parser.tracedBy rule data q) := by
  intro c t t'
  obtain ⟨o, t₁, t₁', hrun, hrun'⟩ := hp.outcome c t t'
  simp only [Parser.tracedBy, hrun, hrun']
  cases o <;> rfl

theorem traced [Listener ω] [Listener ω'] [ToDatum α] {rule : String} (hp : Agree p q) :
    Agree (Parser.traced rule p) (Parser.traced rule q) :=
  hp.tracedBy

theorem manyLoop (hp : Agree p q) : ∀ rounds acc far c t t',
    (Parser.manyLoop p rounds acc far c t).1 = (Parser.manyLoop q rounds acc far c t').1 := by
  intro rounds
  induction rounds with
  | zero => exact fun _ _ _ _ _ => rfl
  | succ rounds ih =>
    intro acc far c t t'
    obtain ⟨o, t₁, t₁', hrun, hrun'⟩ := hp.outcome c t t'
    rw [Parser.manyLoop, Parser.manyLoop, hrun, hrun']
    cases o with
    | done a next far' => exact ih _ _ _ _ _
    | failed far' => rfl
    | rejected recipe => rfl

theorem many (hp : Agree p q) : Agree (Parser.many p) (Parser.many q) :=
  fun c t t' => hp.manyLoop _ _ _ c t t'

theorem many1 (hp : Agree p q) : Agree (Parser.many1 p) (Parser.many1 q) :=
  hp.bind fun _ => hp.many.bind fun _ => pure _

theorem sepBy {s : Parser ω β} {s' : Parser ω' β} (hp : Agree p q) (hs : Agree s s') :
    Agree (Parser.sepBy p s) (Parser.sepBy q s') :=
  orElse (hp.bind fun _ => (hs.bind fun _ => hp).many.bind fun _ => pure _) (pure [])

theorem untilLoop {s : Parser ω β} {s' : Parser ω' β} (hp : Agree p q) (hs : Agree s s') (least : Nat) :
    ∀ rounds count acc c t t', (Parser.untilLoop p s least rounds count acc c t).1 =
      (Parser.untilLoop q s' least rounds count acc c t').1 := by
  intro rounds
  induction rounds with
  | zero => exact fun _ _ _ _ _ => rfl
  | succ rounds ih =>
    intro count acc c t t'
    have hround : ∀ t₁ t₁', (untilRound p s least rounds count acc c t₁).1 =
        (untilRound q s' least rounds count acc c t₁').1 := by
      intro t₁ t₁'
      obtain ⟨o, t₂, t₂', hrun, hrun'⟩ := hp.outcome c t₁ t₁'
      unfold untilRound
      rw [hrun, hrun']
      cases o with
      | done a next far => exact ih _ _ _ _ _
      | failed far => rfl
      | rejected recipe => rfl
    obtain ⟨o, t₁, t₁', hrun, hrun'⟩ := hs.outcome c t t'
    rw [untilLoop_succ, untilLoop_succ, hrun, hrun']
    cases o with
    | done b next far =>
      simp only
      split
      · rfl
      · exact hround t₁ t₁'
    | failed far => exact hround t₁ t₁'
    | rejected recipe => rfl

theorem untilEnd {s : Parser ω β} {s' : Parser ω' β} (hp : Agree p q) (hs : Agree s s') (least : Nat) :
    Agree (Parser.untilEnd p s least) (Parser.untilEnd q s' least) :=
  fun c t t' => hp.untilLoop hs least _ _ _ c t t'

theorem word (s : String) : Agree (word s : Parser ω String) (Parser.word s : Parser ω' String) := by
  have hchars : Agree (chars s.toList : Parser ω (List Char)) (chars s.toList : Parser ω' (List Char)) := by
    intro c t t'
    simp only [chars]
    split <;> rfl
  exact hchars.map _

theorem satisfy (ok : Char → Bool) :
    Agree (satisfy ok : Parser ω Char) (Parser.satisfy ok : Parser ω' Char) := by
  intro c t t'
  simp only [Parser.satisfy]
  split
  · split <;> rfl
  · rfl

theorem span (first others : Char → Bool) :
    Agree (span first others : Parser ω (List Char)) (Parser.span first others : Parser ω' (List Char)) := by
  intro c t t'
  simp only [Parser.span]
  split
  · split <;> rfl
  · rfl

theorem eof : Agree (eof : Parser ω Unit) (Parser.eof : Parser ω' Unit) := by
  intro c t t'
  simp only [Parser.eof]
  split <;> rfl

theorem spread (hp : Agree p q) : Agree (spread p) (Parsing.spread q) :=
  (span _ _).optional.bind fun _ => hp.bind fun _ => (span _ _).optional.bind fun _ => pure _

theorem spaced (hp : Agree p q) : Agree (spaced p) (Parsing.spaced q) :=
  (span _ _).optional.bind fun _ => hp.bind fun _ => (span _ _).optional.bind fun _ => pure _

/-- A word with blanks around it. -/
theorem symbol (s : String) :
    Agree (Parsing.spread (Parser.word s) : Parser ω String) (Parsing.spread (Parser.word s) : Parser ω' String) :=
  (word s).spread

end Agree

section Lexemes

theorem between_agree (mark : String) :
    Agree (between mark : Parser ω (List Char)) (between mark : Parser ω' (List Char)) :=
  (Agree.word mark).bind fun _ => ((Agree.satisfy _).untilEnd (.word mark) 0).bind fun _ =>
    (Agree.word mark).bind fun _ => .pure _

theorem cookedBetween_agree (mark : String) :
    Agree (cookedBetween mark : Parser ω (List Char)) (cookedBetween mark : Parser ω' (List Char)) := by
  have hescape : Agree (escape : Parser ω Char) (escape : Parser ω' Char) :=
    .orElse (.map (.word _) _) (.orElse (.map (.word _) _) (.orElse (.map (.word _) _)
      (.orElse (.map (.word _) _) (.map (.word _) _))))
  exact (Agree.word mark).bind fun _ => ((hescape.orElse (.satisfy _)).untilEnd (.word mark) 0).bind fun _ =>
    (Agree.word mark).bind fun _ => .pure _

variable [Listener ω] [Listener ω']

theorem newline_agree : Agree (newline : Parser ω String) (newline : Parser ω' String) :=
  .traced (.orElse (.word _) (.word _))

theorem comment_agree : Agree (comment : Parser ω Declaration) (comment : Parser ω' Declaration) := by
  refine .traced (.bind (.spaced (.word _)) fun _ => .bind (.satisfy _) fun _ => ?_)
  exact .bind (.untilEnd (.satisfy _) newline_agree 0) fun _ => .pure _

theorem lineEnd_agree : Agree (lineEnd : Parser ω Datum) (lineEnd : Parser ω' Datum) :=
  .traced (.orElse (.bind comment_agree fun _ => .bind newline_agree fun _ => .pure _)
    (.map newline_agree.many1 _))

theorem name_agree : Agree (name : Parser ω String) (name : Parser ω' String) :=
  .traced (.map (.span _ _) _)

theorem stringLiteral_agree : Agree (stringLiteral : Parser ω String) (stringLiteral : Parser ω' String) := by
  refine .traced (.orElse (.traced (.map (cookedBetween_agree _) _)) ?_)
  refine .orElse (.traced (.map (cookedBetween_agree _) _)) ?_
  exact .orElse (.traced (.map (between_agree _) _)) (.traced (.map (between_agree _) _))

end Lexemes

variable [Listener ω] [Listener ω']

section Expressions

variable {nested chained : Parser ω Expr} {nested' chained' : Parser ω' Expr} (hnested : Agree nested nested')

include hnested

theorem arguments_agree : Agree (arguments nested) (arguments nested') :=
  .traced (.bind (.sepBy hnested.spread (.symbol _)) fun _ => .bind (.optional (.symbol _)) fun _ => .pure _)

theorem valueRule_agree : Agree (valueRule nested) (valueRule nested') := by
  have hcall : Agree (callRule nested) (callRule nested') := by
    refine .bind name_agree fun _ => .bind (.word _) fun _ => ?_
    exact .bind (.optional (arguments_agree hnested).spread) fun _ => .bind (.word _) fun _ => .pure _
  have hparens : Agree (parenthesized nested) (parenthesized nested') :=
    .bind (.word _) fun _ => .bind hnested.spread fun _ => .bind (.word _) fun _ => .pure _
  refine .traced (.orElse hcall (.orElse hparens (.orElse (.traced (.map (between_agree _) _)) ?_)))
  refine .orElse (.traced (.map (between_agree _) _)) ?_
  exact .orElse (.map stringLiteral_agree _) (.map name_agree _)

theorem testRule_agree : Agree (testRule nested) (testRule nested') := by
  have hwith : ∀ op : Comparison, Agree (testWith nested op) (testWith nested' op) :=
    fun op => .bind hnested fun _ => .bind (.symbol _) fun _ => .bind hnested fun _ => .pure _
  exact .traced (.orElse (hwith _) (.orElse (hwith _) (hwith _)))

theorem conditionalRule_agree (hchained : Agree chained chained') :
    Agree (conditionalRule nested chained) (conditionalRule nested' chained') := by
  refine .bind (.symbol _) fun _ => .bind (testRule_agree hnested) fun _ => .bind (.symbol _) fun _ => ?_
  refine .bind hnested fun _ => .bind (.symbol _) fun _ => .bind (.symbol _) fun _ => ?_
  refine .bind (.orElse hchained ?_) fun _ => .pure _
  exact .bind (.symbol _) fun _ => .bind hnested.spread fun _ => .bind (.spaced (.word _)) fun _ => .pure _

theorem expressionRule_agree (hchained : Agree chained chained') :
    Agree (expressionRule nested chained) (expressionRule nested' chained') := by
  have hpath : Agree (pathRule nested) (pathRule nested') :=
    .bind (.optional (valueRule_agree hnested)) fun _ => .bind (.symbol _) fun _ => .bind hnested fun _ => .pure _
  have hsum : Agree (sumRule nested) (sumRule nested') :=
    .bind (valueRule_agree hnested) fun _ => .bind (.symbol _) fun _ => .bind hnested fun _ => .pure _
  exact .traced (.orElse (conditionalRule_agree hnested hchained)
    (.orElse hpath (.orElse hsum (valueRule_agree hnested))))

end Expressions

/-- Expressions are read the same, at any depth. -/
theorem expression_agree (depth : Nat) :
    Agree (expression depth : Parser ω Expr) (expression depth : Parser ω' Expr) ∧
      Agree (conditional depth : Parser ω Expr) (conditional depth : Parser ω' Expr) := by
  induction depth with
  | zero =>
    refine ⟨fun c t t' => ?_, fun c t t' => ?_⟩
    · rw [expression_zero, expression_zero]
    · rw [conditional_zero, conditional_zero]
  | succ depth ih =>
    refine ⟨fun c t t' => ?_, fun c t t' => ?_⟩
    · rw [run_expression_succ, run_expression_succ]
      exact expressionRule_agree ih.1 ih.2 c t t'
    · rw [run_conditional_succ, run_conditional_succ]
      exact conditionalRule_agree ih.1 ih.2 c t t'

section Recipes

theorem plainParameter_agree :
    Agree (plainParameter : Parser ω Parameter) (plainParameter : Parser ω' Parameter) := by
  refine .traced (.bind (.map (.optional (.word _)) _) fun _ => .bind name_agree fun _ => ?_)
  exact .bind (.absent (.peek (.symbol _))) fun _ => .pure _

variable (depth : Nat)

theorem defaultParameter_agree :
    Agree (defaultParameter depth : Parser ω Parameter) (defaultParameter depth : Parser ω' Parameter) := by
  refine .traced (.bind (.map (.optional (.word _)) _) fun _ => .bind name_agree fun _ => ?_)
  exact .bind (.symbol _) fun _ => .bind (valueRule_agree (expression_agree depth).1) fun _ => .pure _

theorem variadicParameter_agree :
    Agree (variadicParameter depth : Parser ω Variadic) (variadicParameter depth : Parser ω' Variadic) := by
  have hparam : Agree (anyParameter depth : Parser ω Parameter) (anyParameter depth : Parser ω' Parameter) :=
    .orElse plainParameter_agree (defaultParameter_agree depth)
  exact .traced (.orElse (.bind (.word _) fun _ => .bind hparam fun _ => .pure _)
    (.bind (.word _) fun _ => .bind hparam fun _ => .pure _))

theorem dependency_agree :
    Agree (dependency depth : Parser ω Dependency) (dependency depth : Parser ω' Dependency) := by
  refine .traced (.orElse (.map name_agree _) ?_)
  refine .bind (.word _) fun _ => .bind name_agree fun _ => ?_
  exact .bind (.many (expression_agree depth).1.spread) fun _ => .bind (.word _) fun _ => .pure _

theorem line_agree : Agree (line depth : Parser ω Line) (line depth : Parser ω' Line) := by
  have hbraces : Agree (doubledBraces : Parser ω Fragment) (doubledBraces : Parser ω' Fragment) :=
    .map (.word _) _
  have hinterpolation : Agree (interpolation depth : Parser ω Fragment) (interpolation depth : Parser ω' Fragment) :=
    .traced (.bind (.word _) fun _ => .bind (expression_agree depth).1.spread fun _ =>
      .bind (.word _) fun _ => .pure _)
  have hend : Agree (textEnd depth : Parser ω Unit) (textEnd depth : Parser ω' Unit) :=
    .orElse (.map hbraces _) (.orElse (.map hinterpolation _) (.map lineEnd_agree _))
  have hlead : Agree (lineLead : Parser ω String) (lineLead : Parser ω' String) :=
    .traced (.orElse (.word _) (.orElse (.word _) (.orElse (.word _) (.word _))))
  refine .traced (.bind hlead.optional fun _ => ?_)
  refine .bind (.many1 (.orElse hbraces (.orElse hinterpolation (.map (.untilEnd (.satisfy _) hend 1) _)))) fun _ => ?_
  exact .bind lineEnd_agree fun _ => .pure _

theorem body_agree : Agree (body depth : Parser ω (List Line)) (body depth : Parser ω' (List Line)) := by
  have hstep : Agree (indentation : Parser ω String) (indentation : Parser ω' String) :=
    .traced (.orElse (.word _) (.orElse (.word _) (.word _)))
  exact .traced (.bind hstep.many1.peek fun _ => .many1 (.bind (.word _) fun _ => line_agree depth))

theorem recipe_agree : Agree (recipe depth : Parser ω Recipe) (recipe depth : Parser ω' Recipe) := by
  have hdeps : Agree (spaced (dependency depth) : Parser ω Dependency)
      (spaced (dependency depth) : Parser ω' Dependency) := (dependency_agree depth).spaced
  have hafter : Agree (afterDependencies depth : Parser ω (List Dependency))
      (afterDependencies depth : Parser ω' (List Dependency)) :=
    .bind (.spaced (.word _)) fun _ => hdeps.many1
  unfold recipe
  refine .traced (.bind (.optional (.spaced (.word _))) fun _ => .bind name_agree.spaced fun _ => ?_)
  refine .bind plainParameter_agree.spaced.many fun _ => ?_
  refine .bind (defaultParameter_agree depth).spaced.many fun _ => ?_
  refine .bind (variadicParameter_agree depth).spaced.optional fun _ => .bind (.spaced (.word _)) fun _ => ?_
  refine .bind hdeps.many fun _ => .bind hafter.optional fun _ => ?_
  refine .bind (.orElse (.map lineEnd_agree _) (.map (.span _ _) _)) fun _ => ?_
  refine .bind (body_agree depth).optional fun _ => ?_
  change Agree (if _ then _ else _) (if _ then _ else _)
  split
  · exact .bind (.reject _) fun _ => .bind newline_agree.many fun _ => .pure _
  · exact .bind newline_agree.many fun _ => .pure _

theorem assignment_agree :
    Agree (assignment depth : Parser ω (String × Expr)) (assignment depth : Parser ω' (String × Expr)) := by
  refine .tracedBy (.bind name_agree.spaced fun _ => .bind (.symbol _) fun _ => ?_)
  exact .bind (expression_agree depth).1.spaced fun _ => .bind lineEnd_agree fun _ => .pure _

end Recipes

theorem setting_agree : Agree (setting : Parser ω Declaration) (setting : Parser ω' Declaration) := by
  have hnamed : ∀ (n : String) {v : Parser ω SettingValue} {v' : Parser ω' SettingValue}, Agree v v' →
      Agree (settingNamed n v) (settingNamed n v') :=
    fun n v v' hv => .bind (.word _) fun _ => .bind (.span _ _) fun _ => .bind (.spaced (.word _)) fun _ =>
      .bind hv.spaced fun _ => .pure _
  have hswitch : Agree (switchValue : Parser ω SettingValue) (switchValue : Parser ω' SettingValue) :=
    .map (.optional (.traced (.bind (.symbol _) fun _ => .orElse (.map (.word _) _) (.map (.word _) _)))) _
  have htext : Agree (textValue : Parser ω SettingValue) (textValue : Parser ω' SettingValue) :=
    .bind (.symbol _) fun _ => .map stringLiteral_agree _
  have hlist : Agree (stringList : Parser ω (List String)) (stringList : Parser ω' (List String)) := by
    refine .traced (.bind (.word _) fun _ => .bind (.spread (.sepBy stringLiteral_agree (.symbol _))) fun _ => ?_)
    exact .bind (.spread (.optional (.word _))) fun _ => .bind (.word _) fun _ => .pure _
  have hwords : Agree (wordsValue : Parser ω SettingValue) (wordsValue : Parser ω' SettingValue) :=
    .bind (.symbol _) fun _ => .map hlist _
  refine .traced (.bind ?_ fun _ => .bind lineEnd_agree fun _ => .pure _)
  iterate 7 refine .orElse (hnamed _ hswitch) ?_
  exact .orElse (hnamed _ htext) (.orElse (hnamed _ hwords) (hnamed _ hwords))

theorem declaration_agree (depth : Nat) :
    Agree (declaration depth : Parser ω Declaration) (declaration depth : Parser ω' Declaration) := by
  have halias : Agree (aliasRule : Parser ω Declaration) (aliasRule : Parser ω' Declaration) := by
    refine .traced (.bind (.word _) fun _ => .bind (.span _ _) fun _ => .bind name_agree fun _ => ?_)
    exact .bind (.symbol _) fun _ => .bind name_agree fun _ => .bind lineEnd_agree fun _ => .pure _
  have hexport : Agree (exportRule depth : Parser ω Declaration) (exportRule depth : Parser ω' Declaration) := by
    refine .traced (.bind (.word _) fun _ => .bind (.span _ _) fun _ => ?_)
    exact .bind (assignment_agree depth) fun _ => .pure _
  refine .orElse (.map (recipe_agree depth) _) (.orElse halias (.orElse (.map (assignment_agree depth) _) ?_))
  exact .orElse hexport (.orElse setting_agree (.orElse comment_agree (.map lineEnd_agree _)))

/-- **A justfile is read the same, whoever listens.** -/
theorem file_agree (depth : Nat) :
    Agree (file depth : Parser ω (List Item)) (file depth : Parser ω' (List Item)) := by
  have hrow : Agree (attributeRow : Parser ω (List String)) (attributeRow : Parser ω' (List String)) := by
    refine .bind (.spaced (.word _)) fun _ => .bind (.spread (.sepBy name_agree (.symbol _))) fun _ => ?_
    refine .bind (.spread (.optional (.word _))) fun _ => .bind (.spaced (.word _)) fun _ => ?_
    exact .bind lineEnd_agree fun _ => .pure _
  have hitem : Agree (item depth : Parser ω Item) (item depth : Parser ω' Item) := by
    refine .traced (.bind (.optional (.spread (.tracedBy (.map hrow.many _)))) fun _ => ?_)
    exact .bind (declaration_agree depth) fun _ => .pure _
  exact .bind hitem.many fun _ => .bind lineEnd_agree.many fun _ => .bind (.traced .eof) fun _ => .pure _

theorem read_agree (text : List Char) (t : ω) (t' : ω') : (read text t).1 = (read text t').1 := by
  obtain ⟨o, t₁, t₁', hrun, hrun'⟩ := (file_agree (text.length + 1)).outcome ⟨text, 0⟩ t t'
  unfold read
  rw [hrun, hrun']
  cases o <;> rfl

end Justfile.Parsing

namespace Justfile

/-- **The items that are read with a trace are those that are read without.** -/
theorem fst_parseTraced (text : String) : (parseTraced text).1 = parse text :=
  Parsing.read_agree _ _ _

end Justfile
