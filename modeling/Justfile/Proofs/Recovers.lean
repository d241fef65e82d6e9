import Justfile.Proofs.Legible

/-!
# Recovering expressions

The grammar reads a legible expression back from what is written for it. Alternatives are tried in
order and never taken back, so each step says also why the earlier alternatives fail.

* `Recovers`: a parser recovers a value from its text, up to blanks after it. A conditional at the
  end of an expression takes the blanks after it, so more cannot be said.
* `value_text`, `value_var`, `value_backtick`, `value_call`: the operands.
* `sum_recovers`, `path_recovers`, `cond_recovers`: one lemma for each rule.
* `legible_readBack`: the whole grammar, by induction over the expression.
-/

namespace Justfile.Parsing

open Justfile.Parsing.Parser Justfile.Expr

variable {ω : Type} {cs mid rest s : List Char}

/-- What may follow an expression: what may follow an operand, and no sign that goes on with it. -/
def Ends (rest : List Char) : Prop :=
  Stops rest ∧ Avoids (fun c => c == '/' || c == '+') (rest.dropWhile Text.isBlank)

/-- A text that starts with a character that is not blank. -/
def Opens (s : List Char) : Prop :=
  ∃ c cs, s = c :: cs ∧ Text.isBlank c = false

theorem Opens.append (h : Opens s) (rest : List Char) : Opens (s ++ rest) := by
  obtain ⟨c, cs, rfl, hc⟩ := h
  exact ⟨c, cs ++ rest, rfl, hc⟩

theorem Opens.dropWhile (h : Opens s) : s.dropWhile Text.isBlank = s := by
  obtain ⟨c, cs, rfl, hc⟩ := h
  exact (avoids_cons hc cs).dropWhile

/-- A text that ends with a character that is not blank. -/
def Closes (s : List Char) : Prop :=
  ∃ init d, s = init ++ [d] ∧ Text.isBlank d = false

theorem Closes.append (h : Closes s) (t : List Char) : Closes (t ++ s) := by
  obtain ⟨init, d, rfl, hd⟩ := h
  exact ⟨t ++ init, d, (List.append_assoc t init [d]).symm, hd⟩

theorem Closes.reverse (h : Closes s) : Avoids Text.isBlank s.reverse := by
  obtain ⟨init, d, rfl, hd⟩ := h
  rw [List.reverse_append]
  exact avoids_cons hd _

theorem isSpace_of_not_blank {c : Char} (h : Text.isBlank c = false) : isSpace c = false := by
  by_contra hs
  simp only [isSpace, Bool.not_eq_false, Bool.or_eq_true, beq_iff_eq] at hs
  rcases hs with rfl | rfl <;> cases h

theorem Opens.dropSpaces (h : Opens s) : s.dropWhile isSpace = s := by
  obtain ⟨c, cs, rfl, hc⟩ := h
  exact (avoids_cons (isSpace_of_not_blank hc) cs).dropWhile

/-- The parser recovers `a` from its text `s`, up to blanks after it. -/
def Recovers {α : Type} (p : Parser ω α) (s : List Char) (a : α) : Prop :=
  ∀ rest, Ends rest → ∃ tail, Reads p (s ++ rest) a tail ∧
    tail.dropWhile Text.isBlank = rest.dropWhile Text.isBlank

/-- The parser recovers `a` from its text `s` and leaves all that follows. -/
def RecoversWhole {α : Type} (p : Parser ω α) (s : List Char) (a : α) : Prop :=
  ∀ rest, Stops rest → Reads p (s ++ rest) a rest

theorem stops_cons {c : Char} (h : c = ' ' ∨ c = ')' ∨ c = ',' ∨ c = '\n') (cs : List Char) :
    Stops (c :: cs) := by
  intro d hd
  cases hd
  exact h

/-- After a blank stands a character that neither is blank nor goes on with an expression. -/
theorem ends_blank {c : Char} (hb : Text.isBlank c = false) (hc : (c == '/' || c == '+') = false)
    (cs : List Char) : Ends (' ' :: c :: cs) := by
  refine ⟨stops_cons (.inl rfl) _, ?_⟩
  rw [List.dropWhile_cons_of_pos rfl, (avoids_cons hb cs).dropWhile]
  exact avoids_cons hc cs

theorem ends_close (cs : List Char) : Ends (')' :: cs) :=
  ⟨stops_cons (.inr (.inl rfl)) _, avoids_cons rfl cs⟩

theorem ends_comma (cs : List Char) : Ends (',' :: cs) :=
  ⟨stops_cons (.inr (.inr (.inl rfl))) _, avoids_cons rfl cs⟩

/-- A word between blanks, and what is left after them. -/
theorem spread_word_reads (w : String) (h : cs.dropWhile Text.isBlank = w.toList ++ mid) :
    Reads (spread (word w) : Parser ω String) cs w (mid.dropWhile Text.isBlank) := by
  refine Reads.spread ?_
  rw [h]
  exact .word w mid

/-- A word, a blank, and a text that is not blank. -/
theorem symbol_reads (w : String) (h : cs.dropWhile Text.isBlank = w.toList ++ ' ' :: s)
    (hs : Opens s) : Reads (spread (word w) : Parser ω String) cs w s := by
  have hread := spread_word_reads (ω := ω) w h
  rwa [List.dropWhile_cons_of_pos rfl, hs.dropWhile] at hread

theorem spread_word_refuses {d : Char} (w : String) (hw : w.toList.head? = some d)
    (h : Avoids (· == d) (cs.dropWhile Text.isBlank)) :
    Refuses (spread (word w) : Parser ω String) cs :=
  .spread (word_refuses_of_avoids w hw h)

theorem Recovers.spread {α : Type} {p : Parser ω α} {a : α} (h : Recovers p s a) (hrest : Ends rest)
    (hcs : cs.dropWhile Text.isBlank = s ++ rest) :
    Reads (spread p) cs a (rest.dropWhile Text.isBlank) := by
  obtain ⟨tail, hr, ht⟩ := h rest hrest
  rw [← hcs] at hr
  rw [← ht]
  exact hr.spread

variable [Listener ω] {nested chained : Parser ω Expr}

section Operands

/-- No literal starts with a character that is no quote. -/
theorem stringLiteral_refuses {c : Char} (hd : c ≠ '"') (hs : c ≠ '\'') :
    Refuses (stringLiteral : Parser ω String) (c :: cs) := by
  have hdouble : ∀ w : String, w.toList.head? = some '"' →
      Refuses (cookedBetween w : Parser ω (List Char)) (c :: cs) :=
    fun w hw => .bind (word_refuses w hw hd.symm)
  have hsingle : ∀ w : String, w.toList.head? = some '\'' →
      Refuses (between w : Parser ω (List Char)) (c :: cs) :=
    fun w hw => .bind (word_refuses w hw hs.symm)
  exact .traced (.orElse (.traced (.map _ (hdouble _ rfl))) (.orElse (.traced (.map _ (hdouble _ rfl)))
    (.orElse (.traced (.map _ (hsingle _ rfl))) (.traced (.map _ (hsingle _ rfl))))))

/-- No command starts with a character that is no backtick. -/
theorem backtick_refuses {c : Char} (h : c ≠ '`') (cs : List Char) :
    Refuses (indentedBacktick : Parser ω Expr) (c :: cs) ∧
      Refuses (backtick : Parser ω Expr) (c :: cs) :=
  ⟨.traced (.map _ (.bind (word_refuses _ rfl h.symm))),
    .traced (.map _ (.bind (word_refuses _ rfl h.symm)))⟩

/-- A text literal is an operand. -/
theorem value_literal {s : String} (h : Reads (stringLiteral : Parser ω String) ('"' :: cs) s rest) :
    Reads (valueRule nested) ('"' :: cs) (.text s) rest := by
  have hb := backtick_refuses (ω := ω) (show '"' ≠ '`' by decide) cs
  refine .traced (.orElse_right (.bind (name_refuses rfl)) ?_)
  refine .orElse_right (.bind (word_refuses _ rfl (by decide))) ?_
  exact .orElse_right hb.1 (.orElse_right hb.2 (.orElse_left (h.map _)))

theorem value_text {s : String} (h : s.toList.all isLegible = true) :
    RecoversWhole (valueRule nested) (literalSource s) (.text s) := by
  intro rest hrest
  have hread := stringLiteral_reads (ω := ω) h hrest
  rw [literalSource_eq] at hread ⊢
  exact value_literal hread

theorem value_backtick {command : String} (h : '`' ∉ command.toList) :
    RecoversWhole (valueRule nested) ('`' :: (command.toList ++ ['`'])) (.backtick command) := by
  intro rest hrest
  rw [List.cons_append, List.append_assoc, List.singleton_append]
  obtain ⟨hread, hindented⟩ := backtick_reads (ω := ω) h hrest
  refine .traced (.orElse_right (.bind (name_refuses rfl)) ?_)
  refine .orElse_right (.bind (word_refuses _ rfl (by decide))) ?_
  exact .orElse_right hindented (.orElse_left hread)

/-- Characters that start no name are not those that do. -/
theorem ne_of_isNameStart {c d : Char} (hc : isNameStart c = true) (hd : isNameStart d = false) :
    c ≠ d := by
  rintro rfl
  rw [hc] at hd
  cases hd

theorem value_var {n : String} (h : IsName n) :
    RecoversWhole (valueRule nested) n.toList (.var n) := by
  intro rest hrest
  have hread := name_reads (ω := ω) h (hrest.avoids rfl rfl rfl rfl)
  -- a call begins with a name too, and is given up where no parenthesis opens
  have hcall : Refuses (callRule nested) (n.toList ++ rest) :=
    .bind_right hread (.bind (word_refuses_of_avoids _ rfl (hrest.avoids rfl rfl rfl rfl)))
  obtain ⟨c, cs, hn, hc, -⟩ := h
  rw [hn] at hread hcall ⊢
  have hb := backtick_refuses (ω := ω) (ne_of_isNameStart hc rfl) (cs ++ rest)
  refine .traced (.orElse_right hcall (.orElse_right (.bind ?_) ?_))
  · exact word_refuses _ rfl (ne_of_isNameStart hc rfl).symm
  refine .orElse_right hb.1 (.orElse_right hb.2 (.orElse_right (.map _ ?_) (hread.map _)))
  exact stringLiteral_refuses (ne_of_isNameStart hc rfl) (ne_of_isNameStart hc rfl)

/-- An expression in parentheses. -/
theorem value_parenthesized {e : Expr} (h : Recovers nested s e) (hs : Opens s) (rest : List Char) :
    Reads (valueRule nested) ('(' :: (s ++ [')']) ++ rest) e rest := by
  rw [List.cons_append, List.append_assoc, List.singleton_append]
  refine .traced (.orElse_right (.bind (name_refuses rfl)) (.orElse_left ?_))
  have hinner := h.spread (ends_close rest) (hs.append (')' :: rest)).dropWhile
  exact (Reads.word "(" _).bind (hinner.bind ((Reads.word ")" rest).bind (.pure e rest)))

/-- A character an operand can start with. -/
def isOperandStart (c : Char) : Bool :=
  isNameStart c || c == '(' || c == '`' || c == '"' || c == '\''

/-- No operand starts with another character. -/
theorem value_refuses {c : Char} (h : isOperandStart c = false) :
    Refuses (valueRule nested) (c :: cs) := by
  simp only [isOperandStart, Bool.or_eq_false_iff, beq_eq_false_iff_ne] at h
  obtain ⟨⟨⟨⟨hname, hopen⟩, htick⟩, hdouble⟩, hsingle⟩ := h
  have hb := backtick_refuses (ω := ω) htick cs
  refine .traced (.orElse (.bind (name_refuses hname)) (.orElse (.bind ?_) ?_))
  · exact word_refuses _ rfl hopen.symm
  refine .orElse hb.1 (.orElse hb.2 (.orElse (.map _ ?_) (.map _ (name_refuses hname))))
  exact stringLiteral_refuses hdouble hsingle

end Operands

section Arguments

/-- The arguments after the first one, each after a comma. -/
def writtenMore (es : List Expr) : List Char :=
  es.flatMap fun e => ',' :: ' ' :: written e

theorem writtenArgs_cons (e : Expr) (es : List Expr) :
    writtenArgs (e :: es) = written e ++ writtenMore es := by
  induction es generalizing e with
  | nil => rw [writtenArgs]; simp [writtenMore]
  | cons f es ih => rw [writtenArgs, ih f]; simp [writtenMore]

/-- More arguments, or the end of them, may follow an argument. -/
theorem ends_more (es : List Expr) (rest : List Char) :
    Ends (writtenMore es ++ ')' :: rest) ∧ Opens (writtenMore es ++ ')' :: rest) := by
  cases es with
  | nil => exact ⟨ends_close rest, ')', rest, rfl, rfl⟩
  | cons e es => exact ⟨ends_comma _, ',', _, rfl, rfl⟩

omit [Listener ω] in
theorem more_repeats {es : List Expr}
    (h : ∀ e ∈ es, Recovers nested (written e) e ∧ Opens (written e)) (rest : List Char) :
    Repeats (do let _ ← spread (word ","); spread nested) (writtenMore es ++ ')' :: rest) es
      (')' :: rest) := by
  induction es with
  | nil => exact .stop (.bind (spread_word_refuses _ rfl (avoids_cons rfl rest)))
  | cons e es ih =>
    obtain ⟨he, ho⟩ := h e List.mem_cons_self
    obtain ⟨hends, hopens⟩ := ends_more es rest
    have hcs : writtenMore (e :: es) ++ ')' :: rest =
        ',' :: ' ' :: (written e ++ (writtenMore es ++ ')' :: rest)) := by
      simp [writtenMore]
    have hcomma : Reads (spread (word ",") : Parser ω String) (writtenMore (e :: es) ++ ')' :: rest)
        "," (written e ++ (writtenMore es ++ ')' :: rest)) := by
      rw [hcs]
      exact symbol_reads "," rfl (ho.append _)
    have harg := he.spread hends (ho.append _).dropWhile
    rw [hopens.dropWhile] at harg
    refine .step (hcomma.bind harg) ?_ (ih fun f hf => h f (List.mem_cons_of_mem e hf))
    rw [hcs]
    simp only [List.length_cons, List.length_append]
    omega

/-- **Arguments are read back**, up to the parenthesis that closes. -/
theorem arguments_reads {es : List Expr}
    (h : ∀ e ∈ es, Recovers nested (written e) e ∧ Opens (written e))
    (hclose : ∀ rest, Refuses nested (')' :: rest)) (rest : List Char) :
    Reads (arguments nested) (writtenArgs es ++ ')' :: rest) es (')' :: rest) := by
  have hcomma : Refuses (spread (word ",") : Parser ω String) (')' :: rest) :=
    spread_word_refuses _ rfl (avoids_cons rfl rest)
  refine .traced (.bind ?_ (hcomma.optional.bind (.pure es _)))
  cases es with
  | nil =>
    rw [writtenArgs]
    exact .orElse_right (.bind (.spread (hclose rest))) (.pure [] _)
  | cons e es =>
    obtain ⟨he, ho⟩ := h e List.mem_cons_self
    obtain ⟨hends, hopens⟩ := ends_more es rest
    rw [writtenArgs_cons, List.append_assoc]
    have hfirst := he.spread hends (ho.append _).dropWhile
    rw [hopens.dropWhile] at hfirst
    have hmore := more_repeats (fun f hf => h f (List.mem_cons_of_mem e hf)) rest
    exact .orElse_left (hfirst.bind (hmore.many.bind (.pure (e :: es) _)))

theorem opens_args {es : List Expr} (h : ∀ e ∈ es, Opens (written e)) (rest : List Char) :
    Opens (writtenArgs es ++ ')' :: rest) := by
  cases es with
  | nil => exact ⟨')', rest, rfl, rfl⟩
  | cons e es =>
    rw [writtenArgs_cons, List.append_assoc]
    exact (h e List.mem_cons_self).append _

theorem value_call {n : String} {es : List Expr} (hn : IsName n)
    (h : ∀ e ∈ es, Recovers nested (written e) e ∧ Opens (written e))
    (hclose : ∀ rest, Refuses nested (')' :: rest)) :
    RecoversWhole (valueRule nested) (written (.call n es)) (.call n es) := by
  intro rest _
  rw [written, List.append_assoc, List.cons_append, List.append_assoc, List.singleton_append]
  have hname := name_reads (ω := ω) hn
    (avoids_cons (c := '(') rfl (writtenArgs es ++ ')' :: rest))
  have hargs : Reads (spread (arguments nested)) (writtenArgs es ++ ')' :: rest) es (')' :: rest) := by
    have hinner := arguments_reads h hclose rest
    rw [← (opens_args (fun e he => (h e he).2) rest).dropWhile] at hinner
    exact hinner.spread
  refine .traced (.orElse_left ?_)
  exact hname.bind ((Reads.word "(" _).bind (hargs.optional.bind
    ((Reads.word ")" rest).bind (.pure (Expr.call n es) rest))))

end Arguments

section Rules

/-- No conditional starts where the word `if` does not stand. -/
theorem conditionalRule_refuses (hs : Opens cs) (hif : Refuses (word "if" : Parser ω String) cs) :
    Refuses (conditionalRule nested chained) cs := by
  rw [← hs.dropWhile] at hif
  exact .bind (.spread hif)

/-- After an operand with nothing to go on, no path and no sum is read. -/
theorem expression_of_operand {e : Expr} (hv : RecoversWhole (valueRule nested) s e)
    (hrest : Ends rest) (hcond : Refuses (conditionalRule nested chained) (s ++ rest)) :
    Reads (expressionRule nested chained) (s ++ rest) e rest := by
  have hvalue := hv rest hrest.1
  have hno : ∀ (w : String) (d : Char), w.toList.head? = some d → d = '/' ∨ d = '+' →
      Refuses (spread (word w) : Parser ω String) rest := by
    intro w d hw hd
    refine spread_word_refuses w hw fun c hc => ?_
    have := hrest.2 c hc
    simp only [Bool.or_eq_false_iff, beq_eq_false_iff_ne] at this ⊢
    rcases hd with rfl | rfl
    · exact this.1
    · exact this.2
  refine .traced (.orElse_right hcond ?_)
  refine .orElse_right (.bind_right hvalue.optional (.bind (hno "/" '/' rfl (.inl rfl)))) ?_
  exact .orElse_right (.bind_right hvalue (.bind (hno "+" '+' rfl (.inr rfl)))) hvalue

theorem expression_of_value {e : Expr} (hv : RecoversWhole (valueRule nested) s e) (hs : Opens s)
    (hrest : Ends rest) (hif : Refuses (word "if" : Parser ω String) (s ++ rest)) :
    Reads (expressionRule nested chained) (s ++ rest) e rest :=
  expression_of_operand hv hrest (conditionalRule_refuses (hs.append rest) hif)

variable {sl sr : List Char} {left right : Expr}

/-- **A sum is read back.** The sign keeps it from being read as a path. -/
theorem sum_recovers (hl : RecoversWhole (valueRule nested) sl left) (hol : Opens sl)
    (hif : ∀ rest, Stops rest → Refuses (word "if" : Parser ω String) (sl ++ rest))
    (hr : Recovers nested sr right) (hor : Opens sr) :
    Recovers (expressionRule nested chained) (infixSource sl "+" sr) (.sum left right) := by
  intro rest hrest
  obtain ⟨tail, hright, htail⟩ := hr rest hrest
  have hcs : infixSource sl "+" sr ++ rest = sl ++ ' ' :: '+' :: ' ' :: (sr ++ rest) := by
    simp [infixSource]
  have hstops : Stops (' ' :: '+' :: ' ' :: (sr ++ rest)) := stops_cons (.inl rfl) _
  have hvalue := hl _ hstops
  have hslash : Refuses (spread (word "/") : Parser ω String) (' ' :: '+' :: ' ' :: (sr ++ rest)) :=
    spread_word_refuses "/" rfl (avoids_cons rfl _)
  have hplus : Reads (spread (word "+") : Parser ω String) (' ' :: '+' :: ' ' :: (sr ++ rest)) "+"
      (sr ++ rest) := symbol_reads "+" rfl (hor.append rest)
  refine ⟨tail, ?_, htail⟩
  rw [hcs]
  refine .traced (.orElse_right (conditionalRule_refuses (hol.append _) (hif _ hstops)) ?_)
  refine .orElse_right (.bind_right hvalue.optional (.bind hslash)) (.orElse_left ?_)
  exact hvalue.bind (hplus.bind (hright.bind (.pure _ tail)))

/-- **A path is read back.** -/
theorem path_recovers (hl : RecoversWhole (valueRule nested) sl left) (hol : Opens sl)
    (hif : ∀ rest, Stops rest → Refuses (word "if" : Parser ω String) (sl ++ rest))
    (hr : Recovers nested sr right) (hor : Opens sr) :
    Recovers (expressionRule nested chained) (infixSource sl "/" sr) (.path left right) := by
  intro rest hrest
  obtain ⟨tail, hright, htail⟩ := hr rest hrest
  have hcs : infixSource sl "/" sr ++ rest = sl ++ ' ' :: '/' :: ' ' :: (sr ++ rest) := by
    simp [infixSource]
  have hstops : Stops (' ' :: '/' :: ' ' :: (sr ++ rest)) := stops_cons (.inl rfl) _
  have hvalue := hl _ hstops
  have hslash : Reads (spread (word "/") : Parser ω String) (' ' :: '/' :: ' ' :: (sr ++ rest)) "/"
      (sr ++ rest) := symbol_reads "/" rfl (hor.append rest)
  refine ⟨tail, ?_, htail⟩
  rw [hcs]
  refine .traced (.orElse_right (conditionalRule_refuses (hol.append _) (hif _ hstops)) ?_)
  exact .orElse_left (hvalue.optional.bind (hslash.bind (hright.bind (.pure _ tail))))

omit [Listener ω] in
/-- The symbol of a comparison is refused where another one stands. -/
theorem symbol_refuses {op other : Comparison} (hne : op ≠ other)
    (h : cs.dropWhile Text.isBlank = op.symbol.toList ++ mid) :
    Refuses (spread (word other.symbol) : Parser ω String) cs := by
  refine .spread (.word ?_)
  rw [h]
  cases op <;> cases other <;> first | exact absurd rfl hne | rfl

/-- **A test is read.** Its symbol decides among the three alternatives. -/
theorem test_reads {op : Comparison} {fromRight tail : List Char} (hleft : Reads nested cs left mid)
    (hmid : mid.dropWhile Text.isBlank = op.symbol.toList ++ ' ' :: fromRight) (hopen : Opens fromRight)
    (hright : Reads nested fromRight right tail) :
    Reads (testRule nested) cs ⟨op, left, right⟩ tail := by
  have hsymbol : Reads (spread (word op.symbol) : Parser ω String) mid op.symbol fromRight :=
    symbol_reads _ hmid hopen
  have hyes : Reads (testWith nested op) cs ⟨op, left, right⟩ tail :=
    hleft.bind (hsymbol.bind (hright.bind (.pure (Test.mk op left right) tail)))
  have hno : ∀ other, op ≠ other → Refuses (testWith nested other) cs :=
    fun other hne => .bind_right hleft (.bind (symbol_refuses hne hmid))
  refine .traced ?_
  cases op with
  | equal => exact .orElse_left hyes
  | unequal => exact .orElse_right (hno .equal (by decide)) (.orElse_left hyes)
  | matching =>
    exact .orElse_right (hno .equal (by decide)) (.orElse_right (hno .unequal (by decide)) hyes)

/-- **A test is read back.** -/
theorem test_recovers (op : Comparison) (hl : Recovers nested sl left) (hr : Recovers nested sr right)
    (hor : Opens sr) : Recovers (testRule nested) (infixSource sl op.symbol sr) ⟨op, left, right⟩ := by
  intro rest hrest
  have hcs : infixSource sl op.symbol sr ++ rest =
      sl ++ ' ' :: (op.symbol.toList ++ ' ' :: (sr ++ rest)) := by
    simp [infixSource]
  have hends : Ends (' ' :: (op.symbol.toList ++ ' ' :: (sr ++ rest))) := by
    cases op <;> exact ends_blank rfl rfl _
  have hblank : (' ' :: (op.symbol.toList ++ ' ' :: (sr ++ rest))).dropWhile Text.isBlank =
      op.symbol.toList ++ ' ' :: (sr ++ rest) := by
    cases op <;> rfl
  obtain ⟨mid, hleft, hmid⟩ := hl _ hends
  obtain ⟨tail, hright, htail⟩ := hr rest hrest
  rw [hblank] at hmid
  refine ⟨tail, ?_, htail⟩
  rw [hcs]
  exact test_reads hleft hmid (hor.append rest) hright

/-- Blanks of the line are blanks. -/
theorem dropWhile_isSpace (cs : List Char) :
    (cs.dropWhile isSpace).dropWhile Text.isBlank = cs.dropWhile Text.isBlank := by
  induction cs with
  | nil => rfl
  | cons c cs ih =>
    by_cases h : isSpace c = true
    · have hb : Text.isBlank c = true := by
        simp only [isSpace, Bool.or_eq_true, beq_iff_eq] at h
        rcases h with rfl | rfl <;> rfl
      rw [List.dropWhile_cons_of_pos h, List.dropWhile_cons_of_pos hb, ih]
    · rw [List.dropWhile_cons_of_neg h]

variable {sy sn : List Char} {yes no : Expr}

/-- The branches of a conditional and what follows it. -/
def branches (sy sn rest : List Char) : List Char :=
  '\x7b' :: ' ' :: (sy ++ ' ' :: '\x7d' :: ' ' :: ("else".toList ++ ' ' :: '\x7b' :: ' ' ::
    (sn ++ ' ' :: '\x7d' :: rest)))

/-- **After its test, a conditional is read with its branches.** It takes the blanks of the line
after it. -/
theorem conditionalRule_reads {test : Test} {fromTest : List Char}
    (hif : Reads (spread (word "if") : Parser ω String) cs "if" fromTest)
    (htest : Reads (testRule nested) fromTest test mid)
    (hmid : mid.dropWhile Text.isBlank = branches sy sn rest) (hy : Recovers nested sy yes)
    (hoy : Opens sy) (hn : Recovers nested sn no) (hon : Opens sn)
    (hchained : ∀ cs, Refuses chained ('\x7b' :: cs)) :
    Reads (conditionalRule nested chained) cs (.cond test.op test.left test.right yes no)
      (rest.dropWhile isSpace) := by
  -- the text from each part on
  set fromNo := sn ++ ' ' :: '\x7d' :: rest
  set fromElse := "else".toList ++ ' ' :: '\x7b' :: ' ' :: fromNo
  obtain ⟨mid', hyes, hmid'⟩ := hy _ (ends_blank (c := '\x7d') rfl rfl (' ' :: fromElse))
  have hno : Reads (spread nested) fromNo no ('\x7d' :: rest) :=
    hn.spread (ends_blank (c := '\x7d') rfl rfl rest) (hon.append _).dropWhile
  -- the words between the parts
  have hopen : Reads (spread (word "\x7b") : Parser ω String) mid "\x7b"
      (sy ++ ' ' :: '\x7d' :: ' ' :: fromElse) := symbol_reads "\x7b" hmid (hoy.append _)
  have hclose : Reads (spread (word "\x7d") : Parser ω String) mid' "\x7d" fromElse :=
    symbol_reads "\x7d" hmid' ⟨'e', _, rfl, rfl⟩
  have helse : Reads (spread (word "else") : Parser ω String) fromElse "else"
      ('\x7b' :: ' ' :: fromNo) := symbol_reads "else" rfl ⟨'\x7b', _, rfl, rfl⟩
  have hopen' : Reads (spread (word "\x7b") : Parser ω String) ('\x7b' :: ' ' :: fromNo) "\x7b" fromNo :=
    symbol_reads "\x7b" rfl (hon.append _)
  have hclose' : Reads (spaced (word "\x7d") : Parser ω String) ('\x7d' :: rest) "\x7d"
      (rest.dropWhile isSpace) := (Reads.word "\x7d" rest).spaced rfl rfl
  refine hif.bind (htest.bind (hopen.bind (hyes.bind (hclose.bind (helse.bind (.bind ?_ (.pure _ _)))))))
  exact .orElse_right (hchained _) (hopen'.bind (hno.bind (hclose'.bind (.pure no _))))

theorem condSource_append (op : Comparison) (sl sr sy sn rest : List Char) :
    condSource op sl sr sy sn ++ rest =
      "if".toList ++ ' ' :: (infixSource sl op.symbol sr ++ ' ' :: branches sy sn rest) := by
  unfold condSource
  rw [List.append_assoc, List.append_assoc, List.append_assoc, List.append_assoc, List.append_assoc,
    List.append_assoc]
  rfl

/-- **A conditional is read back.** -/
theorem cond_recovers (op : Comparison) (hl : Recovers nested sl left) (hol : Opens sl)
    (hr : Recovers nested sr right) (hor : Opens sr) (hy : Recovers nested sy yes) (hoy : Opens sy)
    (hn : Recovers nested sn no) (hon : Opens sn)
    (hchained : ∀ cs, Refuses chained ('\x7b' :: cs)) :
    Recovers (expressionRule nested chained) (condSource op sl sr sy sn)
      (.cond op left right yes no) := by
  intro rest hrest
  obtain ⟨mid, htest, hmid⟩ := test_recovers op hl hr hor _
    (ends_blank (c := '\x7b') rfl rfl (branches sy sn rest).tail)
  have hif : Reads (spread (word "if") : Parser ω String) (condSource op sl sr sy sn ++ rest) "if"
      (infixSource sl op.symbol sr ++ ' ' :: branches sy sn rest) := by
    rw [condSource_append]
    exact symbol_reads "if" rfl ((hol.append _).append _)
  refine ⟨rest.dropWhile isSpace, ?_, dropWhile_isSpace rest⟩
  exact .traced (.orElse_left (conditionalRule_reads hif htest hmid hy hoy hn hon hchained))

/-- No expression starts with a character that starts no operand and no path. -/
theorem expressionRule_refuses {c : Char} (hc : isOperandStart c = false) (hs : c ≠ '/')
    (hb : Text.isBlank c = false) : Refuses (expressionRule nested chained) (c :: cs) := by
  have hslash : Refuses (spread (word "/") : Parser ω String) (c :: cs) := by
    refine spread_word_refuses "/" rfl ?_
    rw [(avoids_cons hb cs).dropWhile]
    exact avoids_of_ne hs cs
  have hvalue : Refuses (valueRule nested) (c :: cs) := value_refuses hc
  refine .traced (.orElse (conditionalRule_refuses ⟨c, cs, rfl, hb⟩ ?_) ?_)
  · refine word_refuses _ rfl ?_
    rintro rfl
    cases hc
  exact .orElse (.bind_right hvalue.optional (.bind hslash)) (.orElse (.bind hvalue) hvalue)

end Rules

section Depth

variable {depth : Nat}

theorem reads_expression_succ {e : Expr}
    (h : Reads (expressionRule (expression depth) (conditional depth) : Parser ω Expr) cs e rest) :
    Reads (expression (depth + 1) : Parser ω Expr) cs e rest := by
  intro pos t
  rw [run_expression_succ]
  exact h pos t

theorem expression_refuses_start {c : Char} (hc : isOperandStart c = false) (hs : c ≠ '/')
    (hb : Text.isBlank c = false) (depth : Nat) (cs : List Char) :
    Refuses (expression depth : Parser ω Expr) (c :: cs) := by
  intro pos t
  cases depth with
  | zero => exact ⟨pos, t, expression_zero _ t⟩
  | succ depth =>
    rw [run_expression_succ]
    exact expressionRule_refuses hc hs hb pos t

/-- No expression starts with a parenthesis that closes. -/
theorem expression_refuses (depth : Nat) (cs : List Char) :
    Refuses (expression depth : Parser ω Expr) (')' :: cs) :=
  expression_refuses_start rfl (by decide) rfl depth cs

theorem conditional_refuses (depth : Nat) (cs : List Char) :
    Refuses (conditional depth : Parser ω Expr) ('\x7b' :: cs) := by
  intro pos t
  cases depth with
  | zero => exact ⟨pos, t, conditional_zero _ t⟩
  | succ depth =>
    rw [run_conditional_succ]
    exact conditionalRule_refuses ⟨'\x7b', cs, rfl, rfl⟩ (word_refuses _ rfl (by decide)) pos t

end Depth

section Expressions

/-- Characters of names are not blank. -/
theorem isBlank_of_isNameRest {c : Char} (h : isNameRest c = true) : Text.isBlank c = false := by
  have hrange : 45 ≤ c.toNat ∧ c.toNat ≤ 122 := by
    simp only [isNameRest, Char.isAlphanum, Char.isAlpha, Char.isUpper, Char.isLower, Char.isDigit,
      Bool.or_eq_true, Bool.and_eq_true, decide_eq_true_eq, beq_iff_eq, ge_iff_le,
      UInt32.le_iff_toNat_le] at h
    rcases h with (((h | h) | h) | rfl) | rfl
    · exact ⟨Nat.le_trans (by decide) h.1, Nat.le_trans h.2 (by decide)⟩
    · exact ⟨Nat.le_trans (by decide) h.1, h.2⟩
    · exact ⟨Nat.le_trans (by decide) h.1, Nat.le_trans h.2 (by decide)⟩
    · decide
    · decide
  simp only [Text.isBlank, Bool.or_eq_false_iff, Bool.and_eq_false_iff, decide_eq_false_iff_not,
    beq_eq_false_iff_ne]
  omega

theorem isBlank_of_mem_name {n : String} (h : IsName n) {c : Char} (hc : c ∈ n.toList) :
    Text.isBlank c = false :=
  isBlank_of_isNameRest (List.all_eq_true.1 (isNameRest_of_isName h) c hc)

/-- Names do not end with a blank. -/
theorem closes_name {n : String} (h : IsName n) : Closes n.toList := by
  have hne : n.toList ≠ [] := by
    obtain ⟨c, cs, hn, -⟩ := h
    rw [hn]
    exact List.cons_ne_nil c cs
  exact ⟨_, _, (List.dropLast_append_getLast hne).symm, isBlank_of_mem_name h (List.getLast_mem hne)⟩

theorem opens_name {n : String} (h : IsName n) : Opens n.toList := by
  have hblank := fun c => isBlank_of_mem_name h (c := c)
  obtain ⟨c, cs, hn, -, -⟩ := h
  exact ⟨c, cs, hn, hblank c (by rw [hn]; exact List.mem_cons_self)⟩

theorem opens_operand {e : Expr} (h : e.Legible) (ho : e.IsOperand) : Opens (written e) := by
  cases e with
  | text s => rw [written]; exact ⟨'"', _, rfl, rfl⟩
  | var n => rw [Legible] at h; rw [written]; exact opens_name h.1
  | backtick command => rw [written]; exact ⟨'`', _, rfl, rfl⟩
  | call n args => rw [Legible] at h; rw [written]; exact (opens_name h.1.1).append _
  | sum left right => exact ho.elim
  | path left right => exact ho.elim
  | bareCall n => exact ho.elim
  | cond op left right yes no => exact ho.elim
  | looseCond test yes no => exact ho.elim
  | stray datum => exact ho.elim

/-- What is written for an expression starts with a character that is not blank. -/
theorem opens_written {e : Expr} (h : e.Legible) : Opens (written e) := by
  cases e with
  | text s => exact opens_operand h True.intro
  | var n => exact opens_operand h True.intro
  | backtick command => exact opens_operand h True.intro
  | call n args => exact opens_operand h True.intro
  | sum left right =>
    rw [Legible] at h
    rw [written]
    exact (opens_operand h.2.1 h.1).append _
  | path left right =>
    rw [Legible] at h
    rw [written]
    exact (opens_operand h.2.1 h.1).append _
  | cond op left right yes no => rw [written]; exact ⟨'i', _, rfl, rfl⟩
  | bareCall n => rw [Legible] at h; exact h.elim
  | looseCond test yes no => rw [Legible] at h; exact h.elim
  | stray datum => rw [Legible] at h; exact h.elim

omit [Listener ω] in
/-- A name that does not start like a conditional is not read as one. -/
theorem if_refuses_name {n : String} (h : IsFreeName n) (hrest : Avoids (· == 'f') rest) :
    Refuses (word "if" : Parser ω String) (n.toList ++ rest) := by
  obtain ⟨⟨c, cs, hn, -, -⟩, hfree⟩ := h
  rw [hn] at hfree ⊢
  -- a name that begins with `i` goes on with another letter than `f`, or ends
  by_cases hi : 'i' = c
  · subst hi
    refine .word ?_
    show after? ['f'] (cs ++ rest) = none
    cases cs with
    | nil =>
      cases rest with
      | nil => rfl
      | cons d ds => exact after?_of_ne [] ds fun hd => by simpa [← hd] using hrest d rfl
    | cons d ds => exact after?_of_ne [] (ds ++ rest) fun hd => hfree ⟨ds, by rw [← hd]; rfl⟩
  · exact word_refuses _ rfl hi

omit [Listener ω] in
theorem if_refuses_operand {e : Expr} (h : e.Legible) (ho : e.IsOperand) (hrest : Stops rest) :
    Refuses (word "if" : Parser ω String) (written e ++ rest) := by
  cases e with
  | text s => rw [written]; exact word_refuses _ rfl (by decide)
  | var n =>
    rw [Legible] at h
    rw [written]
    exact if_refuses_name h (hrest.avoids rfl rfl rfl rfl)
  | backtick command => rw [written]; exact word_refuses _ rfl (by decide)
  | call n args =>
    rw [Legible] at h
    rw [written, List.append_assoc]
    exact if_refuses_name h.1 (avoids_cons rfl _)
  | sum left right => exact ho.elim
  | path left right => exact ho.elim
  | bareCall n => exact ho.elim
  | cond op left right yes no => exact ho.elim
  | looseCond test yes no => exact ho.elim
  | stray datum => exact ho.elim

theorem length_written_le {e : Expr} {es : List Expr} (h : e ∈ es) :
    (written e).length ≤ (writtenArgs es).length := by
  induction es with
  | nil => cases h
  | cons f es ih =>
    rw [writtenArgs_cons, List.length_append]
    rcases List.mem_cons.1 h with rfl | h
    · exact Nat.le_add_right _ _
    · have hmore : (writtenArgs es).length ≤ (writtenMore es).length := by
        cases es with
        | nil => cases h
        | cons g es =>
          rw [writtenArgs_cons]
          simp only [writtenMore, List.flatMap_cons, List.length_append, List.length_cons]
          omega
      have := ih h
      omega

theorem length_infixSource (l r : List Char) (symbol : String) :
    l.length + r.length < (infixSource l symbol r).length := by
  unfold infixSource
  rw [List.length_append, List.length_cons, List.length_append, List.length_cons]
  omega

theorem length_condSource (op : Comparison) (l r y n : List Char) :
    l.length + r.length + y.length + n.length < (condSource op l r y n).length := by
  have htest := length_infixSource l r op.symbol
  unfold condSource
  rw [List.length_append, List.length_append, List.length_append, List.length_append,
    List.length_append, List.length_append]
  omega

theorem recovers_succ {depth : Nat} {e : Expr}
    (h : Recovers (expressionRule (expression depth) (conditional depth) : Parser ω Expr) s e) :
    Recovers (expression (depth + 1) : Parser ω Expr) s e := by
  intro rest hrest
  obtain ⟨tail, hr, ht⟩ := h rest hrest
  exact ⟨tail, reads_expression_succ hr, ht⟩

/-- The expression is read back from what is written for it, at every depth that is not below the
length of the text. -/
structure ReadBack (ω : Type) [Listener ω] (e : Expr) : Prop where
  operand : e.IsOperand → ∀ depth, (written e).length ≤ depth →
    RecoversWhole (valueRule (expression depth : Parser ω Expr)) (written e) e
  expression : ∀ depth, (written e).length < depth →
    Recovers (expression depth : Parser ω Expr) (written e) e

/-- An operand is an expression of its own. -/
theorem ReadBack.of_operand {e : Expr} (h : e.Legible) (ho : e.IsOperand)
    (hv : ∀ depth, (written e).length ≤ depth →
      RecoversWhole (valueRule (Parsing.expression depth : Parser ω Expr)) (written e) e) :
    ReadBack ω e := by
  refine ⟨fun _ => hv, fun depth hd rest hrest => ?_⟩
  obtain ⟨d, rfl⟩ : ∃ d, depth = d + 1 := ⟨depth - 1, by omega⟩
  have hif := if_refuses_operand (ω := ω) h ho hrest.1
  have hread : Reads (expressionRule (Parsing.expression d) (conditional d) : Parser ω Expr)
      (written e ++ rest) e rest :=
    expression_of_value (hv d (by omega)) (opens_written h) hrest hif
  exact ⟨rest, reads_expression_succ hread, rfl⟩

/-- What is no operand is read one level further down. -/
theorem ReadBack.of_rule {e : Expr} (ho : ¬ e.IsOperand)
    (h : ∀ depth, (written e).length ≤ depth → Recovers
      (expressionRule (Parsing.expression depth) (conditional depth) : Parser ω Expr) (written e) e) :
    ReadBack ω e := by
  refine ⟨fun ho' => absurd ho' ho, fun depth hd => ?_⟩
  obtain ⟨d, rfl⟩ : ∃ d, depth = d + 1 := ⟨depth - 1, by omega⟩
  exact recovers_succ (h d (by omega))

mutual

/-- **A legible expression is read back from what is written for it.** -/
theorem legible_readBack : ∀ e : Expr, e.Legible → ReadBack ω e
  | .text s, h => .of_operand h True.intro fun depth _ => by
    rw [Legible] at h
    rw [written]
    exact value_text h
  | .var n, h => .of_operand h True.intro fun depth _ => by
    rw [Legible] at h
    rw [written]
    exact value_var h.1
  | .backtick command, h => .of_operand h True.intro fun depth _ => by
    rw [Legible] at h
    rw [written]
    exact value_backtick h.1
  | .call n args, h => .of_operand h True.intro fun depth hd => by
    rw [Legible] at h
    rw [written, List.length_append, List.length_cons, List.length_append] at hd
    refine value_call h.1.1 (fun e he => ?_) (expression_refuses depth)
    obtain ⟨hback, hopen⟩ := allLegible_readBack args h.2 e he
    -- an argument is shorter than the call, so the depth is enough for it
    have hle := length_written_le he
    exact ⟨hback.expression depth (by omega), hopen⟩
  | .sum left right, h => .of_rule id fun depth hd => by
    rw [Legible] at h
    obtain ⟨ho, hl, hr⟩ := h
    have hlen := length_infixSource (written left) (written right) "+"
    rw [written] at hd ⊢
    exact sum_recovers ((legible_readBack left hl).operand ho depth (by omega)) (opens_written hl)
      (fun rest => if_refuses_operand hl ho) ((legible_readBack right hr).expression depth (by omega))
      (opens_written hr)
  | .path left right, h => .of_rule id fun depth hd => by
    rw [Legible] at h
    obtain ⟨ho, hl, hr⟩ := h
    have hlen := length_infixSource (written left) (written right) "/"
    rw [written] at hd ⊢
    exact path_recovers ((legible_readBack left hl).operand ho depth (by omega)) (opens_written hl)
      (fun rest => if_refuses_operand hl ho) ((legible_readBack right hr).expression depth (by omega))
      (opens_written hr)
  | .cond op left right yes no, h => .of_rule id fun depth hd => by
    rw [Legible] at h
    obtain ⟨hl, hr, hy, hn⟩ := h
    have hlen := length_condSource op (written left) (written right) (written yes) (written no)
    rw [written] at hd ⊢
    exact cond_recovers op ((legible_readBack left hl).expression depth (by omega)) (opens_written hl)
      ((legible_readBack right hr).expression depth (by omega)) (opens_written hr)
      ((legible_readBack yes hy).expression depth (by omega)) (opens_written hy)
      ((legible_readBack no hn).expression depth (by omega)) (opens_written hn)
      (conditional_refuses depth)
  | .bareCall _, h => by rw [Legible] at h; exact h.elim
  | .looseCond _ _ _, h => by rw [Legible] at h; exact h.elim
  | .stray _, h => by rw [Legible] at h; exact h.elim

theorem allLegible_readBack : ∀ es : List Expr, AllLegible es → ∀ e ∈ es,
    ReadBack ω e ∧ Opens (written e)
  | [], _ => fun e he => absurd he List.not_mem_nil
  | f :: es, h => fun e he => by
    rw [AllLegible] at h
    rcases List.mem_cons.1 he with he | he
    · rw [he]
      exact ⟨legible_readBack f h.1, opens_written h.1⟩
    · exact allLegible_readBack es h.2 e he

end

/-- An expression that stands alone is read as an operand: it is one, or it is in parentheses. -/
theorem alone_recovers {e : Expr} (h : e.Legible) {depth : Nat}
    (hd : (writtenAlone e).length ≤ depth) :
    RecoversWhole (valueRule (expression depth : Parser ω Expr)) (writtenAlone e) e := by
  obtain ⟨hoperand, hrec⟩ := legible_readBack (ω := ω) e h
  rcases h.alone_cases with ⟨ho, heq⟩ | heq
  · rw [heq] at hd ⊢
    exact hoperand ho depth hd
  · rw [heq] at hd ⊢
    rw [List.length_cons, List.length_append] at hd
    exact fun rest _ => value_parenthesized (hrec depth (by omega)) (opens_written h) rest

omit [Listener ω] in
theorem alone_opens {e : Expr} (h : e.Legible) (hrest : Stops rest) :
    Opens (writtenAlone e) ∧ Refuses (word "if" : Parser ω String) (writtenAlone e ++ rest) := by
  rcases h.alone_cases with ⟨ho, heq⟩ | heq
  · rw [heq]
    exact ⟨opens_written h, if_refuses_operand h ho hrest⟩
  · rw [heq]
    exact ⟨⟨'(', _, rfl, rfl⟩, word_refuses _ rfl (by decide)⟩

/-- **An expression that stands alone is read back**, with nothing of what follows. -/
theorem expression_alone {e : Expr} (h : e.Legible) {depth : Nat}
    (hd : (writtenAlone e).length < depth) (hrest : Ends rest) :
    Reads (expression depth : Parser ω Expr) (writtenAlone e ++ rest) e rest := by
  obtain ⟨d, rfl⟩ : ∃ d, depth = d + 1 := ⟨depth - 1, by omega⟩
  obtain ⟨hopen, hif⟩ := alone_opens (ω := ω) h hrest.1
  exact reads_expression_succ (expression_of_value (alone_recovers h (by omega)) hopen hrest hif)

end Expressions

end Justfile.Parsing
