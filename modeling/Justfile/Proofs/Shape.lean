import Justfile.Parsing.Parse
import Justfile.Program.Helper
import Justfile.Proofs.Yields

/-!
# The shape of expressions

An expression is **named** if its variables and functions have names, and no data stand at places of
expressions and comparisons. It is **formed** if also all its calls have arguments.

* `Grammatical`: a property that is passed from the parts of an expression to the expression, for
  all expressions that the grammar builds. Being named, being proper and being formed are such.
* `expression_yields`: whatever the grammar of expressions reads has every grammatical property.
-/

namespace Justfile

open Parsing Parsing.Parser

/-- A name: a letter or underscore, then letters, digits, underscores and dashes. -/
def IsName (s : String) : Prop :=
  ∃ c cs, s.toList = c :: cs ∧ isNameStart c = true ∧ cs.all isNameRest = true

/-- The characters of a name go on a name. -/
theorem isNameRest_of_isName {s : String} (h : IsName s) : s.toList.all isNameRest = true := by
  obtain ⟨c, cs, hs, hc, hcs⟩ := h
  have hc' : isNameRest c = true := by
    simp only [isNameStart, isNameRest, Char.isAlphanum, Bool.or_eq_true, beq_iff_eq] at hc ⊢
    tauto
  rw [hs, List.all_cons, hc', hcs]
  rfl

namespace Expr

mutual

/-- Variables and functions have names, and no data stand at places of expressions. -/
def Named : Expr → Prop
  | .text _ => True
  | .var name => IsName name
  | .sum left right => left.Named ∧ right.Named
  | .path left right => left.Named ∧ right.Named
  | .backtick _ => True
  | .call name args => IsName name ∧ AllNamed args
  | .bareCall name => IsName name
  | .cond _ left right yes no => left.Named ∧ right.Named ∧ yes.Named ∧ no.Named
  | .looseCond _ _ _ => False
  | .stray _ => False

/-- All expressions of a list are named. -/
def AllNamed : List Expr → Prop
  | [] => True
  | e :: rest => e.Named ∧ AllNamed rest

end

theorem allNamed_iff {es : List Expr} : AllNamed es ↔ ∀ e ∈ es, e.Named := by
  induction es with
  | nil => simp [AllNamed]
  | cons e rest ih => simp [AllNamed, ih]

theorem allProper_iff {es : List Expr} : AllProper es ↔ ∀ e ∈ es, e.Proper := by
  induction es with
  | nil => simp [AllProper]
  | cons e rest ih => simp [AllProper, ih]

/-- All names in the expression are names, all calls have arguments, all tests are comparisons, and no
data stand at places of expressions. -/
def Formed (e : Expr) : Prop :=
  e.Named ∧ e.Proper

mutual

/-- All expressions in an expression, with itself. -/
def nodes : Expr → List Expr
  | .text s => [.text s]
  | .var name => [.var name]
  | .sum left right => .sum left right :: (nodes left ++ nodes right)
  | .path left right => .path left right :: (nodes left ++ nodes right)
  | .backtick command => [.backtick command]
  | .call name args => .call name args :: nodesAll args
  | .bareCall name => [.bareCall name]
  | .cond op left right yes no =>
    .cond op left right yes no :: (nodes left ++ nodes right ++ nodes yes ++ nodes no)
  | .looseCond test yes no => .looseCond test yes no :: (nodes yes ++ nodes no)
  | .stray datum => [.stray datum]

/-- All expressions in expressions, with themselves. -/
def nodesAll : List Expr → List Expr
  | [] => []
  | e :: rest => nodes e ++ nodesAll rest

end

theorem self_mem_nodes (e : Expr) : e ∈ nodes e := by
  cases e <;> simp [nodes]

mutual

/-- What stands in a named expression is named. -/
theorem Named.of_mem_nodes : ∀ {e : Expr}, e.Named → ∀ e' ∈ nodes e, e'.Named
  | .text _, h => fun e' he' => by rw [nodes, List.mem_singleton] at he'; rwa [he']
  | .var _, h => fun e' he' => by rw [nodes, List.mem_singleton] at he'; rwa [he']
  | .backtick _, h => fun e' he' => by rw [nodes, List.mem_singleton] at he'; rwa [he']
  | .bareCall _, h => fun e' he' => by rw [nodes, List.mem_singleton] at he'; rwa [he']
  | .stray _, h => fun e' he' => by rw [nodes, List.mem_singleton] at he'; rwa [he']
  | .looseCond _ _ _, h => by rw [Named] at h; exact h.elim
  | .sum left right, h => fun e' he' => by
    rw [nodes, List.mem_cons, List.mem_append] at he'
    rcases he' with rfl | he' | he'
    · exact h
    · rw [Named] at h; exact Named.of_mem_nodes h.1 e' he'
    · rw [Named] at h; exact Named.of_mem_nodes h.2 e' he'
  | .path left right, h => fun e' he' => by
    rw [nodes, List.mem_cons, List.mem_append] at he'
    rcases he' with rfl | he' | he'
    · exact h
    · rw [Named] at h; exact Named.of_mem_nodes h.1 e' he'
    · rw [Named] at h; exact Named.of_mem_nodes h.2 e' he'
  | .call name args, h => fun e' he' => by
    rw [nodes, List.mem_cons] at he'
    rcases he' with rfl | he'
    · exact h
    · rw [Named] at h; exact AllNamed.of_mem_nodes h.2 e' he'
  | .cond op left right yes no, h => fun e' he' => by
    rw [nodes, List.mem_cons, List.mem_append, List.mem_append, List.mem_append] at he'
    rcases he' with rfl | ((he' | he') | he') | he'
    · exact h
    · rw [Named] at h; exact Named.of_mem_nodes h.1 e' he'
    · rw [Named] at h; exact Named.of_mem_nodes h.2.1 e' he'
    · rw [Named] at h; exact Named.of_mem_nodes h.2.2.1 e' he'
    · rw [Named] at h; exact Named.of_mem_nodes h.2.2.2 e' he'

/-- What stands in named expressions is named. -/
theorem AllNamed.of_mem_nodes : ∀ {es : List Expr}, AllNamed es → ∀ e' ∈ nodesAll es, e'.Named
  | [], _ => fun e' he' => by rw [nodesAll] at he'; cases he'
  | e :: rest, h => fun e' he' => by
    rw [AllNamed] at h
    rw [nodesAll, List.mem_append] at he'
    rcases he' with he' | he'
    · exact Named.of_mem_nodes h.1 e' he'
    · exact AllNamed.of_mem_nodes h.2 e' he'

end

end Expr

/-- All expressions in the items of a justfile. -/
def exprNodes (items : List Item) : List Expr :=
  items.flatMap fun i => i.declaration.exprs.flatMap Expr.nodes

open Justfile.Expr

namespace Parsing

variable {ω : Type} [Listener ω]

theorem name_isName : Yields (name : Parser ω String) IsName := by
  refine Yields.traced (Yields.map ?_)
  intro c t cs next far t' hr
  simp only [span] at hr
  split at hr
  · split at hr
    · rename_i x rest hrest hx
      obtain ⟨ho, -⟩ := Prod.mk.inj hr
      cases ho
      refine ⟨x, rest.takeWhile isNameRest, String.toList_ofList, hx, ?_⟩
      exact List.all_eq_true.2 fun c hc => List.mem_takeWhile_imp hc
    · cases (Prod.mk.inj hr).1
  · cases (Prod.mk.inj hr).1

/-- A property that an expression has if its parts have it, for all that the grammar builds. -/
structure Grammatical (P : Expr → Prop) : Prop where
  text : ∀ s, P (.text s)
  var : ∀ {n}, IsName n → P (.var n)
  backtick : ∀ command, P (.backtick command)
  call : ∀ {f args}, IsName f → (∀ e ∈ args, P e) → P (.call f args)
  sum : ∀ {left right}, P left → P right → P (.sum left right)
  path : ∀ {left right}, P left → P right → P (.path left right)
  cond : ∀ {op left right yes no}, P left → P right → P yes → P no → P (.cond op left right yes no)

theorem grammatical_named : Grammatical Named where
  text _ := by rw [Named]; exact True.intro
  var hn := by rw [Named]; exact hn
  backtick _ := by rw [Named]; exact True.intro
  call hf hargs := by rw [Named]; exact ⟨hf, allNamed_iff.2 hargs⟩
  sum hl hr := by rw [Named]; exact ⟨hl, hr⟩
  path hl hr := by rw [Named]; exact ⟨hl, hr⟩
  cond hl hr hy hn := by rw [Named]; exact ⟨hl, hr, hy, hn⟩

theorem grammatical_proper : Grammatical Proper where
  text _ := by rw [Proper]; exact True.intro
  var _ := by rw [Proper]; exact True.intro
  backtick _ := by rw [Proper]; exact True.intro
  call _ hargs := by rw [Proper]; exact allProper_iff.2 hargs
  sum hl hr := by rw [Proper]; exact ⟨hl, hr⟩
  path hl hr := by rw [Proper]; exact ⟨hl, hr⟩
  cond hl hr hy hn := by rw [Proper]; exact ⟨hl, hr, hy, hn⟩

theorem Grammatical.and {P Q : Expr → Prop} (hP : Grammatical P) (hQ : Grammatical Q) :
    Grammatical fun e => P e ∧ Q e where
  text s := ⟨hP.text s, hQ.text s⟩
  var hn := ⟨hP.var hn, hQ.var hn⟩
  backtick s := ⟨hP.backtick s, hQ.backtick s⟩
  call hf hargs := ⟨hP.call hf fun e he => (hargs e he).1, hQ.call hf fun e he => (hargs e he).2⟩
  sum hl hr := ⟨hP.sum hl.1 hr.1, hQ.sum hl.2 hr.2⟩
  path hl hr := ⟨hP.path hl.1 hr.1, hQ.path hl.2 hr.2⟩
  cond hl hr hy hn := ⟨hP.cond hl.1 hr.1 hy.1 hn.1, hQ.cond hl.2 hr.2 hy.2 hn.2⟩

/-- Being formed is passed on from the parts of an expression. -/
theorem grammatical_formed : Grammatical Formed :=
  grammatical_named.and grammatical_proper

variable {P : Expr → Prop} (hP : Grammatical P)

section Rules

variable {nested chained : Parser ω Expr} (hn : Yields nested P) (hc : Yields chained P)

/-- Arguments can always be read: there may be none. -/
theorem arguments_neverFails (nested : Parser ω Expr) : NeverFails (arguments nested) :=
  .tracedBy ((NeverFails.sepBy _ _).bind fun args => (NeverFails.optional _).bind fun _ => .pure args)

include hP hn

theorem callRule_yields : Yields (callRule nested) P := by
  have hargs : Yields (arguments nested) fun es => ∀ e ∈ es, P e :=
    .traced <| (hn.spread.sepBy _).bind fun _ h => .after _ fun _ => .pure h
  refine name_isName.bind fun f hf => .after _ fun _ => ?_
  refine (hargs.spread.optional_some (arguments_neverFails nested).spread).bind fun args h => ?_
  obtain ⟨es, rfl, hes⟩ := h
  exact .after _ fun _ => .pure (hP.call hf hes)

theorem valueRule_yields : Yields (valueRule nested) P := by
  have hcommand : ∀ p : Parser ω (List Char), ∀ f : List Char → List Char,
      Yields ((fun cs => .backtick (String.ofList (f cs))) <$> p) P := fun p f =>
    .map ((Yields.trivial p).mono fun _ _ => hP.backtick _)
  have htext : Yields (.text <$> (stringLiteral : Parser ω String)) P :=
    .map ((Yields.trivial _).mono fun _ _ => hP.text _)
  have hvar : Yields (.var <$> (name : Parser ω String)) P := .map (name_isName.mono fun _ h => hP.var h)
  unfold valueRule parenthesized indentedBacktick backtick
  refine .traced ((callRule_yields hP hn).orElse (.orElse ?_ ?_))
  · exact .after _ fun _ => hn.spread.bind fun _ he => .after _ fun _ => .pure he
  · exact .orElse (.traced (hcommand _ _)) (.orElse (.traced (hcommand _ id)) (htext.orElse hvar))

omit hP [Listener ω] in
theorem testWith_yields (op : Comparison) : Yields (testWith nested op) fun t => P t.left ∧ P t.right :=
  hn.bind fun _ hl => .after _ fun _ => hn.bind fun _ hr => .pure ⟨hl, hr⟩

include hc

theorem conditionalRule_yields : Yields (conditionalRule nested chained) P := by
  refine .after _ fun _ => ?_
  have ht : Yields (testRule nested) fun t => P t.left ∧ P t.right :=
    .traced ((testWith_yields hn _).orElse ((testWith_yields hn _).orElse (testWith_yields hn _)))
  refine ht.bind fun test htest => .after _ fun _ => hn.bind fun yes hyes => ?_
  refine .after _ fun _ => .after _ fun _ => ?_
  refine (hc.orElse ?_).bind fun no hno => .pure (hP.cond htest.1 htest.2 hyes hno)
  exact .after _ fun _ => hn.spread.bind fun _ he => .after _ fun _ => .pure he

theorem expressionRule_yields : Yields (expressionRule nested chained) P := by
  have hpath : Yields (pathRule nested) P := by
    refine (valueRule_yields hP hn).optional.bind fun left hl => .after _ fun _ => ?_
    refine hn.bind fun right hr => .pure (hP.path ?_ hr)
    -- a path may start with nothing, which stands for the empty text
    cases left with
    | none => exact hP.text ""
    | some left => exact hl left rfl
  have hsum : Yields (sumRule nested) P :=
    (valueRule_yields hP hn).bind fun left hl => .after _ fun _ => hn.bind fun right hr =>
      .pure (hP.sum hl hr)
  unfold expressionRule
  exact .traced ((conditionalRule_yields hP hn hc).orElse
    (hpath.orElse (hsum.orElse (valueRule_yields hP hn))))

end Rules

theorem expression_zero (c : Cursor) (t : ω) :
    (expression 0 : Parser ω Expr).run c t = (.failed c.pos, t) := Eq.refl _

theorem conditional_zero (c : Cursor) (t : ω) :
    (conditional 0 : Parser ω Expr).run c t = (.failed c.pos, t) := Eq.refl _

theorem run_expression_succ (depth : Nat) (c : Cursor) (t : ω) :
    (expression (depth + 1) : Parser ω Expr).run c t =
      (expressionRule (expression depth) (conditional depth)).apply c t := Eq.refl _

theorem run_conditional_succ (depth : Nat) (c : Cursor) (t : ω) :
    (conditional (depth + 1) : Parser ω Expr).run c t =
      (conditionalRule (expression depth) (conditional depth)).apply c t := Eq.refl _

include hP in
/-- **Whatever the grammar of expressions reads has every grammatical property**, at any depth. -/
theorem expression_yields (depth : Nat) :
    Yields (expression depth : Parser ω Expr) P ∧ Yields (conditional depth : Parser ω Expr) P := by
  induction depth with
  | zero =>
    refine ⟨fun c t a next far t' h => ?_, fun c t a next far t' h => ?_⟩
    · rw [expression_zero] at h; cases (Prod.mk.inj h).1
    · rw [conditional_zero] at h; cases (Prod.mk.inj h).1
  | succ depth ih =>
    refine ⟨fun c t a next far t' h => ?_, fun c t a next far t' h => ?_⟩
    · rw [run_expression_succ] at h; exact expressionRule_yields hP ih.1 ih.2 c t a next far t' h
    · rw [run_conditional_succ] at h; exact conditionalRule_yields hP ih.1 ih.2 c t a next far t' h

end Parsing

end Justfile
