import Justfile.Proofs.GapLexemes

/-!
# The grammar on a text with more blanks

Expressions and the headings of recipes may step over blanks that are put into a text. What ends with the end of a
line is read again where it stands before the blanks.

* `expression_carries`: an expression is read across the gap.
* `line_carries`, `body_carries`, `recipe_carries`: lines, bodies and recipes before the gap.
* `item_carries`: an item before the gap, or after it.
-/

namespace Justfile.Parsing

open Justfile.Parsing.Parser

variable {ω : Type} {g : Gap} {c f e : Prop}

theorem parenthesized_carries {nested : Parser ω Expr} (hnested : ∀ {c f e : Prop}, Carries g c f e nested nested) :
    Carries g c f e (parenthesized nested) (parenthesized nested) := by
  refine (word_carries (by decide)).bind fun _ _ => hnested.spread.bind fun a b => ?_
  exact (word_carries (by decide)).bind fun _ _ => .pure fun h => h.1.2

theorem exportMark_carries : Carries g c f e (exportMark : Parser ω Bool) exportMark :=
  (word_carries (by decide)).optional.map _

theorem doubledBraces_carries : Carries g c f e (doubledBraces : Parser ω Fragment) doubledBraces :=
  (word_carries (by decide)).map _

theorem settingNamed_carries {s : String} {p : Parser ω SettingValue} (hs : '\n' ∉ s.toList)
    (hp : ∀ {c f e : Prop}, Carries g c f e p p) : Carries g c f e (settingNamed s p) (settingNamed s p) := by
  refine (word_carries (by decide)).bind fun _ _ => blanks_carries.bind fun _ _ => ?_
  refine (word_carries hs).spaced.bind fun _ _ => hp.spaced.bind fun _ _ => .pure fun h => ?_
  simp only [h]

variable [Listener ω]

section Rules

variable {nested chained : Parser ω Expr} (hnested : ∀ {c f e : Prop}, Carries g c f e nested nested)

include hnested

theorem arguments_carries (hahead : Advances 1 (do let _ ← spread (word ","); spread nested : Parser ω Expr)) :
    Carries g c f e (arguments nested) (arguments nested) := by
  have hlist : ∀ {e : Prop}, Carries g True True e (sepBy (spread nested) (spread (word ",")) : Parser ω (List Expr))
      (sepBy (spread nested) (spread (word ","))) := hnested.spread.sepBy (symbol_carries (by decide)) hahead
  refine .traced ((hlist.weaken id fun _ => trivial).bind fun _ _ => ?_)
  exact (symbol_carries (by decide)).optional.bind fun _ _ => .pure fun h => h.1.2

theorem callRule_carries (hahead : Advances 1 (do let _ ← spread (word ","); spread nested : Parser ω Expr)) :
    Carries g c f e (callRule nested) (callRule nested) := by
  refine name_carries.bind fun n n' => (word_carries (by decide)).bind fun _ _ => ?_
  refine (arguments_carries hnested hahead).spread.optional.bind fun args args' => ?_
  exact (word_carries (by decide)).bind fun _ _ => .pure fun h => by simp only [h]

theorem valueRule_carries (hahead : Advances 1 (do let _ ← spread (word ","); spread nested : Parser ω Expr)) :
    Carries g c f e (valueRule nested) (valueRule nested) := by
  refine .traced (.orElse (callRule_carries hnested hahead) (.orElse (parenthesized_carries hnested) ?_))
  refine .orElse indentedBacktick_carries (.orElse backtick_carries ?_)
  exact .orElse (stringLiteral_carries.map _) (name_carries.map _)

theorem testRule_carries : Carries g c f e (testRule nested) (testRule nested) := by
  have hone : ∀ op, ∀ {c f e : Prop}, Carries g c f e (testWith nested op) (testWith nested op) := by
    intro op c f e
    refine hnested.bind fun a a' => (symbol_carries ?_).bind fun _ _ => hnested.bind fun b b' => .pure fun h => ?_
    · cases op <;> decide
    · simp only [h]
  exact .traced (.orElse (hone _) (.orElse (hone _) (hone _)))

theorem conditionalRule_carries (hchained : ∀ {c f e : Prop}, Carries g c f e chained chained) :
    Carries g c f e (conditionalRule nested chained) (conditionalRule nested chained) := by
  refine (symbol_carries (by decide)).bind fun _ _ => (testRule_carries hnested).bind fun test test' => ?_
  refine (symbol_carries (by decide)).bind fun _ _ => hnested.bind fun yes yes' => ?_
  refine (symbol_carries (by decide)).bind fun _ _ => (symbol_carries (by decide)).bind fun _ _ => ?_
  refine Carries.bind (hchained.orElse ?_) fun no no' => .pure fun h => ?_
  · refine (symbol_carries (by decide)).bind fun _ _ => hnested.spread.bind fun a b => ?_
    exact (word_carries (by decide)).spaced.bind fun _ _ => .pure fun h => h.1.2
  · simp only [h]

theorem pathRule_carries (hahead : Advances 1 (do let _ ← spread (word ","); spread nested : Parser ω Expr)) :
    Carries g c f e (pathRule nested) (pathRule nested) := by
  refine (valueRule_carries hnested hahead).optional.bind fun left left' => ?_
  refine (symbol_carries (by decide)).bind fun _ _ => hnested.bind fun right right' => .pure fun h => ?_
  simp only [h]

theorem sumRule_carries (hahead : Advances 1 (do let _ ← spread (word ","); spread nested : Parser ω Expr)) :
    Carries g c f e (sumRule nested) (sumRule nested) := by
  refine (valueRule_carries hnested hahead).bind fun left left' => ?_
  refine (symbol_carries (by decide)).bind fun _ _ => hnested.bind fun right right' => .pure fun h => ?_
  simp only [h]

theorem expressionRule_carries (hchained : ∀ {c f e : Prop}, Carries g c f e chained chained)
    (hahead : Advances 1 (do let _ ← spread (word ","); spread nested : Parser ω Expr)) :
    Carries g c f e (expressionRule nested chained) (expressionRule nested chained) := by
  refine .traced (.orElse (conditionalRule_carries hnested hchained) (.orElse (pathRule_carries hnested hahead) ?_))
  exact .orElse (sumRule_carries hnested hahead) (valueRule_carries hnested hahead)

end Rules

/-- **An expression is read across the gap**, however deep it is nested. -/
theorem expression_carries (depth : Nat) :
    (∀ {c f e : Prop}, Carries g c f e (expression depth : Parser ω Expr) (expression depth)) ∧
      ∀ {c f e : Prop}, Carries g c f e (conditional depth : Parser ω Expr) (conditional depth) := by
  induction depth with
  | zero => exact ⟨.of_refuses fun z pos t => ⟨pos, t, rfl⟩, .of_refuses fun z pos t => ⟨pos, t, rfl⟩⟩
  | succ depth ih =>
    have hahead := (repetitions ω).nextArgument depth
    have hexpression : (expression (depth + 1) : Parser ω Expr) =
        expressionRule (expression depth) (conditional depth) :=
      Parser.eq_of_run fun c t => run_expression_succ depth c t
    have hconditional : (conditional (depth + 1) : Parser ω Expr) =
        conditionalRule (expression depth) (conditional depth) :=
      Parser.eq_of_run fun c t => run_conditional_succ depth c t
    rw [hexpression, hconditional]
    exact ⟨expressionRule_carries ih.1 ih.2 hahead, conditionalRule_carries ih.1 ih.2⟩

section File

theorem plainParameter_carries : Carries g c f e (plainParameter : Parser ω Parameter) plainParameter := by
  have hequals : ∀ {e : Prop}, Decided g e (peek (spread (word "=")) : Parser ω String) (peek (spread (word "="))) :=
    (symbol_carries (by decide)).decided.peek
  refine .traced (exportMark_carries.bind fun _ _ => name_carries.bind fun _ _ => ?_)
  exact (Carries.absent hequals).bind fun _ _ => .pure fun h => by simp only [h]

variable (depth : Nat)

theorem value_carries : Carries g c f e (value depth : Parser ω Expr) (value depth) :=
  valueRule_carries (expression_carries depth).1 ((repetitions ω).nextArgument depth)

theorem defaultParameter_carries :
    Carries g c f e (defaultParameter depth : Parser ω Parameter) (defaultParameter depth) := by
  refine .traced (exportMark_carries.bind fun _ _ => name_carries.bind fun _ _ => ?_)
  refine (symbol_carries (by decide)).bind fun _ _ => ?_
  exact (value_carries depth).bind fun _ _ => .pure fun h => by simp only [h]

theorem variadicParameter_carries :
    Carries g c f e (variadicParameter depth : Parser ω Variadic) (variadicParameter depth) := by
  have hany : ∀ {c f e : Prop}, Carries g c f e (anyParameter depth : Parser ω Parameter) (anyParameter depth) :=
    plainParameter_carries.orElse (defaultParameter_carries depth)
  have hone : ∀ (s : String) (kind : Arity), '\n' ∉ s.toList → ∀ {c f e : Prop},
      Carries g c f e (do let _ ← word s; let p ← anyParameter depth; return ⟨kind, p⟩ : Parser ω Variadic)
        (do let _ ← word s; let p ← anyParameter depth; return ⟨kind, p⟩) :=
    fun s kind hs {_ _ _} => (word_carries hs).bind fun _ _ => hany.bind fun _ _ => .pure fun h => by simp only [h]
  exact .traced (.orElse (hone _ _ (by decide)) (hone _ _ (by decide)))

theorem dependency_carries : Carries g c f e (dependency depth : Parser ω Dependency) (dependency depth) := by
  refine .traced (.orElse (name_carries.map _) ?_)
  refine (word_carries (by decide)).bind fun _ _ => name_carries.bind fun _ _ => ?_
  refine Carries.bind (.many (expression_carries depth).1.spread ((repetitions ω).dependencyArgument depth))
    fun _ _ => ?_
  exact (word_carries (by decide)).bind fun _ _ => .pure fun h => by simp only [h]

theorem interpolation_carries :
    Carries g c f e (interpolation depth : Parser ω Fragment) (interpolation depth) := by
  refine .traced ((word_carries (by decide)).bind fun _ _ => (expression_carries depth).1.spread.bind fun _ _ => ?_)
  exact (word_carries (by decide)).bind fun _ _ => .pure fun h => by simp only [h]

theorem textEnd_decided : Decided g e (textEnd depth : Parser ω Unit) (textEnd depth) :=
  (doubledBraces_carries.decided.map _).orElse
    (((interpolation_carries depth).decided.map _).orElse (lineEnd_decided.map _))

theorem plainText_carries : Carries g c f e (plainText depth : Parser ω Fragment) (plainText depth) := by
  have htext : Carries g c f e
      (untilEnd (satisfy fun c => c != '\r' && c != '\n') (textEnd depth) 1 : Parser ω (List Char))
      (untilEnd (satisfy fun c => c != '\r' && c != '\n') (textEnd depth) 1) :=
    .untilEnd (satisfy_carries fun _ => rfl) (textEnd_decided depth) (repetitions ω).lineChar
  exact htext.map _

theorem lineContent_carries : Carries g c f e (lineContent depth : Parser ω Line) (lineContent depth) := by
  have hlead : ∀ {c f e : Prop}, Carries g c f e (lineLead : Parser ω String) lineLead :=
    .traced (.orElse (word_carries (by decide)) (.orElse (word_carries (by decide))
      (.orElse (word_carries (by decide)) (word_carries (by decide)))))
  have hparts : ∀ {c e : Prop}, Carries g c True e
      (many1 (doubledBraces <|> interpolation depth <|> plainText depth) : Parser ω (List Fragment))
      (many1 (doubledBraces <|> interpolation depth <|> plainText depth)) :=
    .many1 (doubledBraces_carries.orElse ((interpolation_carries depth).orElse (plainText_carries depth)))
      ((repetitions ω).piece depth)
  refine hlead.optional.bind fun _ _ => ?_
  exact (hparts.weaken id fun _ => trivial).bind fun _ _ => .pure fun h => by simp only [h]

/-- **A line before the gap is read again.** -/
theorem line_carries : Carries g False f e (line depth : Parser ω Line) (line depth) := by
  rw [line_eq]
  refine .traced ((lineContent_carries depth).bind fun _ _ => ?_)
  exact lineEnd_carries.bind_last (fun _ _ => .pure fun h => h.1.2) fun _ => .pure _

/-- What stands before the lines of a body: blanks of one line, and some of them. -/
def IsIndent (cs : List Char) : Prop :=
  cs ≠ [] ∧ ∀ d ∈ cs, isSpace d = true

theorem IsIndent.line {cs : List Char} (h : IsIndent cs) : '\n' ∉ cs :=
  fun hmem => absurd (h.2 _ hmem) (by decide)

theorem indentation_yields : Yields (indentation : Parser ω String) fun s => IsIndent s.toList := by
  have hword : ∀ s : String, s.toList ≠ [] → s.toList.all isSpace = true →
      Yields (word s : Parser ω String) fun s => IsIndent s.toList :=
    fun s hne hs => .map (.mono (.trivial _) fun _ _ => ⟨hne, List.all_eq_true.1 hs⟩)
  exact .traced (.orElse (hword _ (by decide) rfl) (.orElse (hword _ (by decide) rfl) (hword _ (by decide) rfl)))

theorem indent_yields :
    Yields (many1 indentation : Parser ω (List String)) fun steps => IsIndent (String.join steps).toList := by
  refine (indentation_yields.many1.and (.many1_ne_nil _)).mono ?_
  rintro steps ⟨hsteps, hne⟩
  obtain ⟨s, steps, rfl⟩ := List.exists_cons_of_ne_nil hne
  rw [String.toList_join, List.flatMap_cons]
  refine ⟨fun hnil => (hsteps s List.mem_cons_self).1 (List.append_eq_nil_iff.1 hnil).1, fun d hd => ?_⟩
  rw [← List.flatMap_cons] at hd
  obtain ⟨s', hs', hd⟩ := List.mem_flatMap.1 hd
  exact (hsteps s' hs').2 d hd

theorem indent_carries : Carries g c True e (many1 indentation : Parser ω (List String)) (many1 indentation) := by
  refine .many1 (.traced (.orElse (word_carries (by decide)) (.orElse (word_carries (by decide)) ?_)))
    (repetitions ω).indentation
  exact word_carries (by decide)

theorem indent_stays : Stays g (many1 indentation : Parser ω (List String)) := by
  have hahead : Advances 0 (indentation : Parser ω String) :=
    .of_alike (F := fun _ _ => False) fun _ => indentation_alike.weaken
  refine .many1 (.traced (.orElse (word_stays (by decide)) (.orElse (word_stays (by decide)) ?_))) hahead
  exact word_stays (by decide)

/-- A line with its indentation. -/
def bodyLine (indent : String) : Parser ω Line := do
  let _ ← word indent
  line depth

theorem bodyLine_carries {indent : String} (h : IsIndent indent.toList) :
    Carries g False f e (bodyLine depth indent : Parser ω Line) (bodyLine depth indent) :=
  (word_carries h.line).bind fun _ _ => line_carries depth

/-- **A body before the gap is read again.** -/
theorem body_carries : Carries g False f e (body depth : Parser ω (List Line)) (body depth) := by
  refine .traced (.bind_peek indent_carries indent_stays indent_yields fun steps hsteps => ?_)
  have hlines : Carries g False True e (many1 (bodyLine depth (String.join steps)) : Parser ω (List Line))
      (many1 (bodyLine depth (String.join steps))) :=
    .many1 (bodyLine_carries depth hsteps) ((repetitions ω).bodyLine depth _)
  exact hlines.weaken id fun _ => trivial

theorem heading_carries : Carries g False f e (heading depth : Parser ω Recipe) (heading depth) := by
  have hdependency : ∀ {c f e : Prop}, Carries g c f e (spaced (dependency depth) : Parser ω Dependency)
      (spaced (dependency depth)) := (dependency_carries depth).spaced
  have hafter : ∀ {c e : Prop}, Carries g c True e (afterDependencies depth : Parser ω (List Dependency))
      (afterDependencies depth) := by
    intro c e
    refine (word_carries (by decide)).spaced.bind fun _ _ => ?_
    exact hdependency.many1 ((repetitions ω).dependency depth)
  refine (word_carries (by decide)).spaced.optional.bind fun _ _ => name_carries.spaced.bind fun _ _ => ?_
  refine Carries.bind (.many plainParameter_carries.spaced (repetitions ω).plainParameter) fun _ _ => ?_
  refine Carries.bind (.many (defaultParameter_carries depth).spaced ((repetitions ω).defaultParameter depth))
    fun _ _ => ?_
  refine (variadicParameter_carries depth).spaced.optional.bind fun _ _ => ?_
  refine (word_carries (by decide)).spaced.bind fun _ _ => ?_
  refine Carries.bind (.many hdependency ((repetitions ω).dependency depth)) fun _ _ => ?_
  refine hafter.optional.bind fun _ _ => ?_
  refine Carries.bind_last (.orElse (lineEnd_carries.map _) (blanks_carries.map _)) (fun _ _ => .pure fun h => ?_)
    fun _ => .pure _
  simp only [h]

/-- **A recipe before the gap is read again.** -/
theorem recipe_carries : Carries g False f True (recipe depth : Parser ω Recipe) (recipe depth) := by
  rw [recipe_eq, draft_eq]
  have hdraft : Carries g False f True
      (do let r ← heading depth; let lines ← optional (body depth); return { r with body := lines.getD [] } :
        Parser ω Recipe)
      (do let r ← heading depth; let lines ← optional (body depth); return { r with body := lines.getD [] }) := by
    refine (heading_carries depth).bind_last (fun _ _ => ?_) fun _ => (NeverFails.optional _).bind fun _ => .pure _
    exact (body_carries depth).optional.bind_last (fun _ _ => .pure fun h => by simp only [h]) fun _ => .pure _
  have hrest : ∀ r : Recipe, Carries g False f (True ∧ r = r) (do let _ ← many newline; return r : Parser ω Recipe)
      (do let _ ← many newline; return r) :=
    fun r => (newline_carries.many (repetitions ω).newline).bind_last (fun _ _ => .pure fun _ => rfl) fun _ => .pure _
  have hnever : ∀ r : Recipe, NeverFails (do let _ ← many newline; return r : Parser ω Recipe) :=
    fun r => (NeverFails.many _).bind fun _ => .pure _
  -- the check is made on the same recipe, so that it has the same result
  refine .traced (hdraft.chain (fun r r' heq => ?_) id id fun _ => .inr fun r => ?_)
  · obtain rfl : r = r' := (heq.resolve_left id) trivial
    cases hcheck : r.check with
    | error failure =>
      exact Carries.reject.bind_last (fun _ _ => (hrest r).assume And.left) fun _ => hnever r
    | ok u => exact hrest r
  · cases hcheck : r.check with
    | error failure => exact NeverFails.bind (fun _ _ _ _ hrun => by cases hrun) fun _ => hnever r
    | ok u => exact hnever r

theorem assignment_carries :
    Carries g False f e (assignment depth : Parser ω (String × Expr)) (assignment depth) := by
  refine .tracedBy (name_carries.spaced.bind fun _ _ => (symbol_carries (by decide)).bind fun _ _ => ?_)
  refine (expression_carries depth).1.spaced.bind fun _ _ => ?_
  exact lineEnd_carries.bind_last (fun _ _ => .pure fun h => by simp only [h]) fun _ => .pure _

theorem exportRule_carries : Carries g False f e (exportRule depth : Parser ω Declaration) (exportRule depth) := by
  refine .traced ((word_carries (by decide)).bind fun _ _ => blanks_carries.bind fun _ _ => ?_)
  exact (assignment_carries depth).bind_last (fun _ _ => .pure fun h => by simp only [h]) fun _ => .pure _

end File

section Settings

theorem aliasRule_carries : Carries g False f e (aliasRule : Parser ω Declaration) aliasRule := by
  refine .traced ((word_carries (by decide)).bind fun _ _ => blanks_carries.bind fun _ _ => ?_)
  refine name_carries.bind fun _ _ => ?_
  refine (symbol_carries (by decide)).bind fun _ _ => name_carries.bind fun _ _ => ?_
  exact lineEnd_carries.bind_last (fun _ _ => .pure fun h => by simp only [h]) fun _ => .pure _

theorem switchValue_carries : Carries g c f e (switchValue : Parser ω SettingValue) switchValue := by
  have hboolean : ∀ {c f e : Prop}, Carries g c f e (boolean : Parser ω Bool) boolean :=
    .traced ((symbol_carries (by decide)).bind fun _ _ =>
      .orElse ((word_carries (by decide)).map _) ((word_carries (by decide)).map _))
  exact hboolean.optional.map _

theorem textValue_carries : Carries g c f e (textValue : Parser ω SettingValue) textValue :=
  (symbol_carries (by decide)).bind fun _ _ => stringLiteral_carries.map _

theorem wordsValue_carries : Carries g c f e (wordsValue : Parser ω SettingValue) wordsValue := by
  have hlist : ∀ {e : Prop}, Carries g True True e (sepBy stringLiteral (spread (word ",")) : Parser ω (List String))
      (sepBy stringLiteral (spread (word ","))) :=
    stringLiteral_carries.sepBy (symbol_carries (by decide)) (repetitions ω).nextString
  refine (symbol_carries (by decide)).bind fun _ _ => Carries.map (.traced ?_) _
  refine (word_carries (by decide)).bind fun _ _ => (hlist.spread.weaken id fun _ => trivial).bind fun _ _ => ?_
  refine (word_carries (by decide)).optional.spread.bind fun _ _ => ?_
  exact (word_carries (by decide)).bind fun _ _ => .pure fun h => by simp only [h]

theorem setting_carries : Carries g False f e (setting : Parser ω Declaration) setting := by
  have hswitch : ∀ {s : String}, '\n' ∉ s.toList → ∀ {c f e : Prop},
      Carries g c f e (settingNamed s switchValue : Parser ω Declaration) (settingNamed s switchValue) :=
    fun {_} hs {_ _ _} => settingNamed_carries hs switchValue_carries
  refine .traced (Carries.bind (c := False) ?_ fun _ _ => ?_)
  · refine .orElse (hswitch (by decide)) (.orElse (hswitch (by decide)) (.orElse (hswitch (by decide)) ?_))
    refine .orElse (hswitch (by decide)) (.orElse (hswitch (by decide)) (.orElse (hswitch (by decide)) ?_))
    refine .orElse (hswitch (by decide)) (.orElse (settingNamed_carries (by decide) textValue_carries) ?_)
    exact .orElse (settingNamed_carries (by decide) wordsValue_carries)
      (settingNamed_carries (by decide) wordsValue_carries)
  · exact lineEnd_carries.bind_last (fun _ _ => .pure fun h => h.1.2) fun _ => .pure _

theorem attributeRow_carries : Carries g False f e (attributeRow : Parser ω (List String)) attributeRow := by
  have hlist : ∀ {e : Prop}, Carries g True True e (sepBy name (spread (word ",")) : Parser ω (List String))
      (sepBy name (spread (word ","))) :=
    name_carries.sepBy (symbol_carries (by decide)) (repetitions ω).nextAttribute
  refine (word_carries (by decide)).spaced.bind fun _ _ => (hlist.spread.weaken id fun _ => trivial).bind fun _ _ => ?_
  refine (word_carries (by decide)).optional.spread.bind fun _ _ => (word_carries (by decide)).spaced.bind fun _ _ => ?_
  exact lineEnd_carries.bind_last (fun _ _ => .pure fun h => by simp only [h]) fun _ => .pure _

/-- The attributes before an item, if there are any. -/
theorem attributes_carries : Carries g False f e (optional (spread attributes) : Parser ω (Option (List String)))
    (optional (spread attributes)) := by
  have hrows : Carries g False True e (many attributeRow : Parser ω (List (List String))) (many attributeRow) :=
    attributeRow_carries.many (repetitions ω).attributeRow
  exact (Carries.tracedBy (hrows.map _)).spread.optional

end Settings

theorem declaration_carries (depth : Nat) :
    Carries g False f True (declaration depth : Parser ω Declaration) (declaration depth) := by
  refine .orElse ((recipe_carries depth).map _) (.orElse aliasRule_carries ?_)
  refine .orElse ((assignment_carries depth).map _) (.orElse (exportRule_carries depth) (.orElse setting_carries ?_))
  exact .orElse comment_carries (lineEnd_carries.map _)

/-- **An item before the gap is read again, and so is one after it.** -/
theorem item_carries (depth : Nat) : Carries g False False True (item depth : Parser ω Item) (item depth) := by
  refine .traced (attributes_carries.chain (fun names names' heq => ?_) id id False.elim)
  obtain rfl : names = names' := (heq.resolve_left id) trivial
  refine ((declaration_carries depth).assume fun _ => trivial).chain (fun d d' _ => .pure fun h => ?_) id id False.elim
  simp only [h]

end Justfile.Parsing
