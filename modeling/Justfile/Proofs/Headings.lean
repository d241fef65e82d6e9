import Justfile.Proofs.BodyLines
import Justfile.Proofs.Form
import Justfile.Proofs.Recovers

/-!
# Headings of recipes

A canonical way to write the heading of a recipe: its name, its parameters, those without default
before those with one, a parameter for the remaining arguments, and its dependencies. Each part has
one blank before it, and all texts are literals.

* `Recipe.heading`: how a heading is written. `Recipe.Headed`: the recipes that have one.
* `spacedAll_repeats`: parts with a blank before each are read one after the other.
* `plainParameter_reads`, `defaultParameter_reads`, `variadic_reads`, `dependency_reads`: the parts.
  Those without default are told from those with one by what follows the name.
* `recipe_reads`: a recipe is its heading and its body.
-/

namespace Justfile

open Justfile.Parsing

/-- How a character of a text literal is written: as an escape, or as itself. -/
def literalChar (c : Char) : List Char :=
  match Expr.escapes.lookup c with
  | some d => ['\\', d]
  | none => [c]

/-- How a text literal is written. -/
def literal (s : String) : List Char :=
  '"' :: (s.toList.flatMap literalChar ++ ['"'])

/-- How a default or an argument that is a text is written. -/
def Expr.literal : Expr → List Char
  | .text s => Justfile.literal s
  | _ => []

/-- An expression that is a text. -/
def Expr.IsText (e : Expr) : Prop :=
  ∃ s, e = .text s

/-- How a parameter is written. -/
def Parameter.written (p : Parameter) : List Char :=
  (if p.exported then ['$'] else []) ++ p.name.toList ++
    (match p.default with
    | some e => '=' :: e.literal
    | none => [])

/-- A parameter without default. -/
def Parameter.Required (p : Parameter) : Prop :=
  IsName p.name ∧ p.default = none

/-- A parameter whose default is a text. -/
def Parameter.Defaulted (p : Parameter) : Prop :=
  IsName p.name ∧ ∃ e, p.default = some e ∧ e.IsText

/-- How it is written that a parameter takes the remaining arguments. -/
def Arity.mark : Arity → Char
  | .star => '*'
  | .plus => '+'

/-- How a parameter that takes the remaining arguments is written. -/
def Variadic.written (v : Variadic) : List Char :=
  v.arity.mark :: v.param.written

/-- How a dependency is written: its name, or its name and arguments in parentheses. -/
def Dependency.written (d : Dependency) : List Char :=
  if d.args.isEmpty then d.name.toList
  else '(' :: (d.name.toList ++ (d.args.flatMap fun e => ' ' :: e.literal) ++ [')'])

/-- A dependency whose arguments are texts. -/
def Dependency.Plain (d : Dependency) : Prop :=
  IsName d.name ∧ ∀ e ∈ d.args, e.IsText

namespace Recipe

/-- How the parameter for the remaining arguments is written. -/
def variadicText (r : Recipe) : List Char :=
  match r.variadic with
  | some v => ' ' :: v.written
  | none => []

/-- How dependencies that run after a recipe are written. -/
def afterText (r : Recipe) : List Char :=
  if r.after.isEmpty then []
  else ' ' :: '&' :: '&' :: r.after.flatMap fun d => ' ' :: d.written

/-- How the heading of a recipe is written. -/
def heading (r : Recipe) : List Char :=
  (if r.echo then [] else ['@']) ++ (r.name.toList ++ ((r.parameters.flatMap fun p => ' ' :: p.written) ++
    (r.variadicText ++ ':' :: ((r.before.flatMap fun d => ' ' :: d.written) ++ r.afterText))))

/-- A recipe whose heading can be written: parameters without default stand before those with one,
and one for the remaining arguments has a default if another one has. -/
structure Headed (r : Recipe) : Prop where
  name : IsName r.name
  parameters : ∃ required defaulted, r.parameters = required ++ defaulted ∧
    (∀ p ∈ required, p.Required) ∧ ∀ p ∈ defaulted, p.Defaulted
  variadic : ∀ v ∈ r.variadic, v.param.Required ∨ v.param.Defaulted
  variadicDefault : ∀ v ∈ r.variadic, v.param.default = none → ∀ p ∈ r.parameters, p.default = none
  before : ∀ d ∈ r.before, d.Plain
  after : ∀ d ∈ r.after, d.Plain

end Recipe

namespace Parsing

open Justfile.Parsing.Parser Justfile.Expr

variable {ω : Type} {depth : Nat} {cs mid rest tail : List Char}

section Spaced

/-- **Parts with a blank before each are read one after the other.** What stands before a part is
skipped with the part before it, so the texts are taken without the blanks they start with. -/
theorem spacedAll_repeats {α : Type} {p : Parser ω α} {text : α → List Char} (F : List Char → Prop)
    (htail : F tail) (hstop : Refuses (spaced p) (tail.dropWhile isSpace)) (as : List α)
    (hF : ∀ a ∈ as, ∀ t, F (' ' :: (text a ++ t)))
    (h : ∀ a ∈ as, ∀ t, F t → Opens (text a) ∧ Reads p (text a ++ t) a t) :
    Repeats (spaced p) (((as.flatMap fun a => ' ' :: text a) ++ tail).dropWhile isSpace) as
      (tail.dropWhile isSpace) := by
  induction as with
  | nil => exact .stop hstop
  | cons a as ih =>
    have hmore := ih (fun b hb => hF b (List.mem_cons_of_mem a hb)) fun b hb => h b (List.mem_cons_of_mem a hb)
    set t := (as.flatMap fun a => ' ' :: text a) ++ tail with ht
    have hFt : F t := by
      cases as with
      | nil => exact htail
      | cons b bs =>
        rw [ht, List.flatMap_cons, List.append_assoc]
        exact hF b (List.mem_cons_of_mem a List.mem_cons_self) _
    obtain ⟨hopen, hread⟩ := h a List.mem_cons_self t hFt
    have htext : (((a :: as).flatMap fun a => ' ' :: text a) ++ tail).dropWhile isSpace = text a ++ t := by
      rw [List.flatMap_cons, List.append_assoc, ← ht, List.cons_append, List.dropWhile_cons_of_pos rfl]
      exact (hopen.append t).dropSpaces
    rw [htext]
    refine .step (hread.spaced ((hopen.append t).dropSpaces) rfl) ?_ hmore
    -- a part is not empty
    obtain ⟨c, w, hw, -⟩ := hopen
    have hle : (t.dropWhile isSpace).length ≤ t.length := (List.dropWhile_suffix _).length_le
    rw [hw, List.length_append, List.length_cons]
    omega

end Spaced

variable [Listener ω]

section Literals

theorem isSpelling_literalChar (c : Char) : IsSpelling c (literalChar c) := by
  unfold literalChar
  cases hc : escapes.lookup c with
  | some d =>
    refine .inl ⟨d, ?_, rfl⟩
    simp only [escapes, List.lookup_cons, List.lookup_nil] at hc
    repeat' split at hc
    all_goals cases hc
    all_goals simp_all [escapes]
  | none =>
    refine .inr ⟨rfl, ?_, ?_⟩ <;> rintro rfl <;> cases hc

/-- **A text literal is read back**, unless a quote follows it. -/
theorem value_reads {e : Expr} (he : e.IsText) (hrest : Avoids (· == '"') rest) (depth : Nat) :
    Reads (value depth : Parser ω Expr) (e.literal ++ rest) e rest := by
  obtain ⟨s, rfl⟩ := he
  have hread := literal_reads (ω := ω) (s := s) (fun c _ => isSpelling_literalChar c) hrest
  rw [Expr.literal, literal, List.cons_append, List.append_assoc, List.singleton_append]
  exact value_literal hread

/-- A text literal starts with a quote. -/
theorem opens_literal {e : Expr} (he : e.IsText) : ∃ cs, e.literal = '"' :: cs := by
  obtain ⟨s, rfl⟩ := he
  exact ⟨_, rfl⟩

/-- A text literal as an argument, with what may follow an argument. -/
theorem argument_reads (depth : Nat) {e : Expr} (he : e.IsText) (hrest : Ends rest)
    (hcs : cs.dropWhile Text.isBlank = e.literal ++ rest) :
    Reads (spread (expression (depth + 1)) : Parser ω Expr) cs e (rest.dropWhile Text.isBlank) := by
  obtain ⟨w, hw⟩ := opens_literal he
  have hopen : Opens e.literal := ⟨'"', w, hw, rfl⟩
  have hvalue : RecoversWhole (valueRule (expression depth : Parser ω Expr)) e.literal e :=
    fun t ht => value_reads he (ht.avoids rfl rfl rfl rfl) depth
  have hif : Refuses (word "if" : Parser ω String) (e.literal ++ rest) := by
    rw [hw]
    exact word_refuses _ rfl (by decide)
  refine Reads.spread ?_
  rw [hcs]
  exact reads_expression_succ (expression_of_value hvalue hopen hrest hif)

/-- More arguments, or the end of them, may follow an argument. -/
theorem ends_arguments {es : List Expr} (h : ∀ e ∈ es, e.IsText) (rest : List Char) :
    Ends ((es.flatMap fun e => ' ' :: e.literal) ++ ')' :: rest) := by
  cases es with
  | nil => exact ends_close rest
  | cons e es =>
    obtain ⟨w, hw⟩ := opens_literal (h e List.mem_cons_self)
    rw [List.flatMap_cons, hw]
    exact ends_blank rfl rfl _

/-- **Arguments are read back**, up to the parenthesis that closes. -/
theorem dependencyArguments_read (depth : Nat) {e : Expr} {es : List Expr} (h : ∀ f ∈ e :: es, f.IsText)
    (rest : List Char) :
    Reads (many (spread (expression (depth + 1))) : Parser ω (List Expr))
      (((e :: es).flatMap fun e => ' ' :: e.literal) ++ ')' :: rest) (e :: es) (')' :: rest) := by
  -- after the first argument, each one starts where the blank before it is skipped
  have hmore : ∀ es : List Expr, (∀ f ∈ es, f.IsText) →
      Repeats (spread (expression (depth + 1)) : Parser ω Expr)
        (((es.flatMap fun e => ' ' :: e.literal) ++ ')' :: rest).dropWhile Text.isBlank) es (')' :: rest) := by
    intro es
    induction es with
    | nil => exact fun _ => .stop (.spread (expression_refuses (depth + 1) rest))
    | cons f es ih =>
      intro hes
      obtain ⟨w, hw⟩ := opens_literal (hes f List.mem_cons_self)
      have hf := ends_arguments (fun g hg => hes g (List.mem_cons_of_mem f hg)) rest
      have htext : (((f :: es).flatMap fun e => ' ' :: e.literal) ++ ')' :: rest).dropWhile Text.isBlank =
          f.literal ++ ((es.flatMap fun e => ' ' :: e.literal) ++ ')' :: rest) := by
        rw [List.flatMap_cons, List.append_assoc, List.cons_append, List.dropWhile_cons_of_pos rfl, hw]
        rfl
      have hdrop : (f.literal ++ ((es.flatMap fun e => ' ' :: e.literal) ++ ')' :: rest)).dropWhile
          Text.isBlank = f.literal ++ ((es.flatMap fun e => ' ' :: e.literal) ++ ')' :: rest) := by
        rw [hw]
        rfl
      rw [htext]
      refine .step (argument_reads depth (hes f List.mem_cons_self) hf hdrop) ?_
        (ih fun g hg => hes g (List.mem_cons_of_mem f hg))
      have hle := (List.dropWhile_suffix Text.isBlank
        (l := (es.flatMap fun e => ' ' :: e.literal) ++ ')' :: rest)).length_le
      rw [hw, List.length_append, List.length_cons]
      omega
  obtain ⟨w, hw⟩ := opens_literal (h e List.mem_cons_self)
  have hes : ∀ f ∈ es, f.IsText := fun f hf => h f (List.mem_cons_of_mem e hf)
  have hdrop : (((e :: es).flatMap fun e => ' ' :: e.literal) ++ ')' :: rest).dropWhile Text.isBlank =
      e.literal ++ ((es.flatMap fun e => ' ' :: e.literal) ++ ')' :: rest) := by
    rw [List.flatMap_cons, List.append_assoc, List.cons_append, List.dropWhile_cons_of_pos rfl, hw]
    rfl
  have hfirst := argument_reads (ω := ω) depth (h e List.mem_cons_self) (ends_arguments hes rest) hdrop
  refine (Repeats.step hfirst ?_ (hmore es hes)).many
  have hle := (List.dropWhile_suffix Text.isBlank
    (l := (es.flatMap fun e => ' ' :: e.literal) ++ ')' :: rest)).length_le
  rw [List.flatMap_cons, List.append_assoc, List.cons_append, List.length_cons, List.length_append]
  omega

end Literals

section Parameters

/-- What may follow a parameter: it goes on neither with the name nor with a literal, and no equals
sign stands after blanks. -/
structure Parted (t : List Char) : Prop where
  name : Avoids isNameRest t
  quote : Avoids (· == '"') t
  equals : Avoids (· == '=') (t.dropWhile Text.isBlank)

theorem parted_colon (cs : List Char) : Parted (':' :: cs) :=
  ⟨avoids_cons rfl cs, avoids_cons rfl cs, avoids_cons rfl cs⟩

theorem parted_blank (hs : Opens cs) (he : Avoids (· == '=') cs) : Parted (' ' :: cs) := by
  refine ⟨avoids_cons rfl cs, avoids_cons rfl cs, ?_⟩
  rw [List.dropWhile_cons_of_pos rfl, hs.dropWhile]
  exact he

omit [Listener ω] in
/-- The mark of an exported parameter. -/
theorem exportMark_reads (p : Parameter) (hn : IsName p.name) (rest : List Char) :
    Reads (exportMark : Parser ω Bool) ((if p.exported then ['$'] else []) ++ (p.name.toList ++ rest))
      p.exported (p.name.toList ++ rest) := by
  cases hp : p.exported with
  | true => exact (Reads.optional (Reads.word "$" (p.name.toList ++ rest))).map _
  | false =>
    obtain ⟨c, cs, hc, hstart, -⟩ := hn
    rw [hc]
    exact (Refuses.optional (word_refuses "$" rfl (ne_of_isNameStart hstart rfl).symm)).map _

/-- A parameter starts with its mark or its name. -/
theorem opens_parameter (p : Parameter) (hn : IsName p.name) (rest : List Char) :
    Opens (p.written ++ rest) ∧ Avoids (· == '=') (p.written ++ rest) := by
  have hblank := fun c => isBlank_of_mem_name hn (c := c)
  obtain ⟨c, cs, hc, hstart, -⟩ := hn
  have hne : c ≠ '=' := ne_of_isNameStart hstart rfl
  unfold Parameter.written
  cases p.exported with
  | true => exact ⟨⟨'$', _, rfl, rfl⟩, avoids_cons rfl _⟩
  | false =>
    rw [hc]
    exact ⟨⟨c, _, rfl, hblank c (by rw [hc]; exact List.mem_cons_self)⟩, avoids_of_ne hne _⟩

theorem plainParameter_reads {p : Parameter} (hp : p.Required) (ht : Parted tail) :
    Reads (plainParameter : Parser ω Parameter) (p.written ++ tail) p tail := by
  obtain ⟨hn, hd⟩ := hp
  have hmark := exportMark_reads (ω := ω) p hn tail
  have hname := name_reads (ω := ω) hn ht.name
  have habsent : Reads (absent (peek (spread (word "="))) : Parser ω Unit) tail () tail :=
    Refuses.absent (.peek (spread_word_refuses "=" rfl ht.equals))
  have heq : (⟨p.exported, p.name, none⟩ : Parameter) = p := by rw [← hd]
  have hread : Reads (plainParameter : Parser ω Parameter) _ (⟨p.exported, p.name, none⟩ : Parameter) tail :=
    .traced (hmark.bind (hname.bind (habsent.bind (.pure _ _))))
  rw [heq] at hread
  unfold Parameter.written
  rw [hd, List.append_nil, List.append_assoc]
  exact hread

/-- What is written for a parameter with a default. -/
theorem written_defaulted {p : Parameter} {e : Expr} (he : p.default = some e) (tail : List Char) :
    p.written ++ tail = (if p.exported then ['$'] else []) ++ (p.name.toList ++ '=' :: (e.literal ++ tail)) := by
  unfold Parameter.written
  rw [he, List.append_assoc, List.append_assoc]
  rfl

/-- **A parameter with a default is not taken for one without.** -/
theorem plainParameter_refuses {p : Parameter} (hp : p.Defaulted) (tail : List Char) :
    Refuses (plainParameter : Parser ω Parameter) (p.written ++ tail) := by
  obtain ⟨hn, e, he, -⟩ := hp
  rw [written_defaulted he]
  have hmark := exportMark_reads (ω := ω) p hn ('=' :: (e.literal ++ tail))
  have hname : Reads (name : Parser ω String) (p.name.toList ++ '=' :: (e.literal ++ tail)) p.name _ :=
    name_reads hn (avoids_cons rfl _)
  have hequals : Reads (spread (word "=") : Parser ω String) ('=' :: (e.literal ++ tail)) "=" _ :=
    spread_word_reads "=" rfl
  exact .traced (.bind_right hmark (.bind_right hname (.bind hequals.peek.absent)))

theorem defaultParameter_reads {p : Parameter} (hp : p.Defaulted) (ht : Parted tail) (depth : Nat) :
    Reads (defaultParameter depth : Parser ω Parameter) (p.written ++ tail) p tail := by
  obtain ⟨hn, e, he, htext⟩ := hp
  rw [written_defaulted he]
  have hmark := exportMark_reads (ω := ω) p hn ('=' :: (e.literal ++ tail))
  have hname : Reads (name : Parser ω String) (p.name.toList ++ '=' :: (e.literal ++ tail)) p.name _ :=
    name_reads hn (avoids_cons rfl _)
  have hequals : Reads (spread (word "=") : Parser ω String) ('=' :: (e.literal ++ tail)) "="
      (e.literal ++ tail) := by
    have h : Reads (spread (word "=") : Parser ω String) ('=' :: (e.literal ++ tail)) "="
        ((e.literal ++ tail).dropWhile Text.isBlank) := spread_word_reads "=" rfl
    obtain ⟨w, hw⟩ := opens_literal htext
    rw [hw] at h ⊢
    exact h
  have hvalue := value_reads (ω := ω) htext ht.quote depth
  have heq : (⟨p.exported, p.name, some e⟩ : Parameter) = p := by rw [← he]
  have hread : Reads (defaultParameter depth : Parser ω Parameter) _
      (⟨p.exported, p.name, some e⟩ : Parameter) tail :=
    .traced (hmark.bind (hname.bind (hequals.bind (hvalue.bind (.pure _ _)))))
  rw [heq] at hread
  exact hread

/-- No parameter starts with a character that is no mark and starts no name. -/
theorem parameters_refuse {c : Char} (hc : c ≠ '$') (hn : isNameStart c = false) (depth : Nat)
    (cs : List Char) :
    Refuses (plainParameter : Parser ω Parameter) (c :: cs) ∧
      Refuses (defaultParameter depth : Parser ω Parameter) (c :: cs) := by
  have hmark : Reads (exportMark : Parser ω Bool) (c :: cs) false (c :: cs) :=
    (Refuses.optional (word_refuses "$" rfl hc.symm)).map _
  exact ⟨.traced (.bind_right hmark (.bind (name_refuses hn))),
    .traced (.bind_right hmark (.bind (name_refuses hn)))⟩

theorem variadic_reads {v : Variadic} (hv : v.param.Required ∨ v.param.Defaulted) (ht : Parted tail)
    (depth : Nat) : Reads (variadicParameter depth : Parser ω Variadic) (v.written ++ tail) v tail := by
  have hparam : Reads (anyParameter depth : Parser ω Parameter) (v.param.written ++ tail) v.param tail := by
    rcases hv with hp | hp
    · exact .orElse_left (plainParameter_reads hp ht)
    · exact .orElse_right (plainParameter_refuses hp tail) (defaultParameter_reads hp ht depth)
  obtain ⟨arity, param⟩ := v
  cases arity with
  | star => exact .traced (.orElse_left ((Reads.word "*" _).bind (hparam.bind (.pure _ _))))
  | plus =>
    have hstar : Refuses (word "*" : Parser ω String) ('+' :: (param.written ++ tail)) :=
      word_refuses "*" rfl (by decide)
    exact .traced (.orElse_right (.bind hstar) ((Reads.word "+" _).bind (hparam.bind (.pure _ _))))

end Parameters

section Dependencies

/-- **A dependency is read back**, unless its name goes on. -/
theorem dependency_reads {d : Dependency} (hd : d.Plain) (ht : Avoids isNameRest tail) :
    Reads (dependency (depth + 1) : Parser ω Dependency) (d.written ++ tail) d tail := by
  obtain ⟨n, args⟩ := d
  obtain ⟨hn, hargs⟩ := hd
  cases args with
  | nil => exact .traced (.orElse_left ((name_reads hn ht).map _))
  | cons e es =>
    have hname : Reads (name : Parser ω String)
        (n.toList ++ (((e :: es).flatMap fun e => ' ' :: e.literal) ++ ')' :: tail)) n _ :=
      name_reads hn (avoids_cons rfl _)
    have hread := dependencyArguments_read (ω := ω) depth hargs tail
    have htext : Dependency.written ⟨n, e :: es⟩ ++ tail =
        '(' :: (n.toList ++ (((e :: es).flatMap fun e => ' ' :: e.literal) ++ ')' :: tail)) := by
      simp [Dependency.written]
    rw [htext]
    refine .traced (.orElse_right (.map _ (name_refuses rfl)) ?_)
    exact (Reads.word "(" _).bind (hname.bind (hread.bind ((Reads.word ")" tail).bind (.pure _ _))))

theorem opens_dependency {d : Dependency} (hd : d.Plain) : Opens d.written := by
  unfold Dependency.written
  split
  · exact opens_name hd.1
  · exact ⟨'(', _, rfl, rfl⟩

/-- Without a name or a parenthesis there is no dependency. -/
theorem dependency_refuses {c : Char} (hn : isNameStart c = false) (hc : c ≠ '(') (depth : Nat)
    (cs : List Char) : Refuses (dependency depth : Parser ω Dependency) (c :: cs) :=
  .traced (.orElse (.map _ (name_refuses hn)) (.bind (word_refuses "(" rfl hc.symm)))

/-- Dependencies with a blank before each, up to another part of the heading or its end. -/
theorem dependencies_repeat (depth : Nat) {c : Char} {ds : List Dependency} (hds : ∀ d ∈ ds, d.Plain)
    (htail : Avoids isNameRest tail) (hnext : tail.dropWhile isSpace = c :: cs)
    (hn : isNameStart c = false) (hp : c ≠ '(') (hspace : isSpace c = false) :
    Repeats (spaced (dependency (depth + 1)) : Parser ω Dependency)
      (((ds.flatMap fun d => ' ' :: d.written) ++ tail).dropWhile isSpace) ds (c :: cs) := by
  have hstop : Refuses (spaced (dependency (depth + 1)) : Parser ω Dependency) (tail.dropWhile isSpace) := by
    refine .spaced ?_
    rw [hnext, (avoids_cons hspace cs).dropWhile]
    exact dependency_refuses hn hp _ cs
  rw [← hnext]
  exact spacedAll_repeats (Avoids isNameRest) htail hstop ds (fun d _ t => avoids_cons rfl _)
    fun d hd t ht => ⟨opens_dependency (hds d hd), dependency_reads (hds d hd) ht⟩

/-- After the dependencies before a recipe stands a mark or the end of the heading. -/
theorem afterText_next (r : Recipe) (rest : List Char) :
    Avoids isNameRest (r.afterText ++ '\n' :: rest) ∧
      ∃ c cs, (r.afterText ++ '\n' :: rest).dropWhile isSpace = c :: cs ∧ isNameStart c = false ∧
        c ≠ '(' ∧ isSpace c = false := by
  unfold Recipe.afterText
  split
  · exact ⟨avoids_cons rfl _, '\n', rest, rfl, rfl, by decide, rfl⟩
  · exact ⟨avoids_cons rfl _, '&', _, rfl, rfl, by decide, rfl⟩

/-- The dependencies that run after a recipe, up to the end of the heading. -/
theorem afterDependencies_read (depth : Nat) {r : Recipe} (h : ∀ d ∈ r.after, d.Plain) (rest : List Char) :
    ∃ o, Reads (optional (afterDependencies (depth + 1)) : Parser ω (Option (List Dependency)))
      ((r.afterText ++ '\n' :: rest).dropWhile isSpace) o ('\n' :: rest) ∧ o.getD [] = r.after := by
  unfold Recipe.afterText
  cases hr : r.after with
  | nil =>
    have hno : Refuses (spaced (word "&&") : Parser ω String) ('\n' :: rest) :=
      .spaced (word_refuses "&&" rfl (by decide))
    exact ⟨none, Refuses.optional (.bind hno), rfl⟩
  | cons d ds =>
    rw [hr] at h
    have hmark : Reads (spaced (word "&&") : Parser ω String)
        ('&' :: '&' :: (((d :: ds).flatMap fun d => ' ' :: d.written) ++ '\n' :: rest)) "&&" _ :=
      (Reads.word "&&" _).spaced rfl rfl
    have hend : Avoids isNameRest ('\n' :: rest) := avoids_cons rfl _
    have hdeps := dependencies_repeat (ω := ω) depth h hend rfl rfl (by decide) rfl
    exact ⟨some (d :: ds), .optional (hmark.bind hdeps.many1), rfl⟩

end Dependencies

section Heading

/-- After the parameters with and without default stands a mark or the colon. -/
theorem variadicText_next (r : Recipe) (depth : Nat) (rest : List Char) :
    Parted (r.variadicText ++ ':' :: rest) ∧
      Refuses (spaced plainParameter : Parser ω Parameter)
        ((r.variadicText ++ ':' :: rest).dropWhile isSpace) ∧
      Refuses (spaced (defaultParameter depth) : Parser ω Parameter)
        ((r.variadicText ++ ':' :: rest).dropWhile isSpace) := by
  -- the next character neither is blank nor starts a parameter
  have hrefuse : ∀ (c : Char) (cs : List Char), c ≠ '$' → isNameStart c = false → isSpace c = false →
      Refuses (spaced plainParameter : Parser ω Parameter) (c :: cs) ∧
        Refuses (spaced (defaultParameter depth) : Parser ω Parameter) (c :: cs) := by
    intro c cs hc hn hs
    obtain ⟨hplain, hdefault⟩ := parameters_refuse (ω := ω) hc hn depth cs
    rw [← (avoids_cons hs cs).dropWhile] at hplain hdefault
    exact ⟨.spaced hplain, .spaced hdefault⟩
  unfold Recipe.variadicText
  cases r.variadic with
  | none => exact ⟨parted_colon rest, hrefuse ':' rest (by decide) rfl rfl⟩
  | some v =>
    obtain ⟨arity, param⟩ := v
    cases arity with
    | star => exact ⟨parted_blank ⟨'*', _, rfl, rfl⟩ (avoids_cons rfl _), hrefuse '*' _ (by decide) rfl rfl⟩
    | plus => exact ⟨parted_blank ⟨'+', _, rfl, rfl⟩ (avoids_cons rfl _), hrefuse '+' _ (by decide) rfl rfl⟩

/-- The parameter for the remaining arguments, if there is one, up to the colon. -/
theorem optionalVariadic_reads {r : Recipe} (h : ∀ v ∈ r.variadic, v.param.Required ∨ v.param.Defaulted)
    (depth : Nat) (rest : List Char) :
    Reads (optional (spaced (variadicParameter depth)) : Parser ω (Option Variadic))
      ((r.variadicText ++ ':' :: rest).dropWhile isSpace) r.variadic (':' :: rest) := by
  unfold Recipe.variadicText
  cases hr : r.variadic with
  | none =>
    refine Refuses.optional (.spaced (.traced (.orElse (.bind ?_) (.bind ?_))))
    · exact word_refuses "*" rfl (by decide)
    · exact word_refuses "+" rfl (by decide)
  | some v =>
    have hopen : Opens (v.written ++ ':' :: rest) := by
      obtain ⟨arity, param⟩ := v
      cases arity <;> exact ⟨_, _, rfl, rfl⟩
    have hread := variadic_reads (ω := ω) (h v hr) (parted_colon rest) depth
    have hdrop : (' ' :: v.written ++ ':' :: rest).dropWhile isSpace = v.written ++ ':' :: rest := by
      rw [List.cons_append, List.dropWhile_cons_of_pos rfl, hopen.dropSpaces]
    rw [hdrop]
    exact .optional (hread.spaced hopen.dropSpaces rfl)

/-- More parameters may follow a parameter. -/
theorem parted_parameters {ps : List Parameter} (h : ∀ p ∈ ps, IsName p.name) (ht : Parted tail) :
    Parted ((ps.flatMap fun p => ' ' :: p.written) ++ tail) := by
  cases ps with
  | nil => exact ht
  | cons p ps =>
    rw [List.flatMap_cons, List.append_assoc]
    obtain ⟨hopen, hequals⟩ := opens_parameter p (h p List.mem_cons_self)
      ((ps.flatMap fun p => ' ' :: p.written) ++ tail)
    exact parted_blank hopen hequals

omit [Listener ω] in
/-- A list of parameters of one kind, with a blank before each. -/
theorem parameters_repeat {q : Parser ω Parameter} {ps : List Parameter} (hn : ∀ p ∈ ps, IsName p.name)
    (hq : ∀ p ∈ ps, ∀ t, Parted t → Reads q (p.written ++ t) p t) (ht : Parted tail)
    (hstop : Refuses (spaced q) (tail.dropWhile isSpace)) :
    Repeats (spaced q) (((ps.flatMap fun p => ' ' :: p.written) ++ tail).dropWhile isSpace) ps
      (tail.dropWhile isSpace) := by
  refine spacedAll_repeats Parted ht hstop ps (fun p hp t => ?_) fun p hp t hpt => ⟨?_, hq p hp t hpt⟩
  · obtain ⟨hopen, hequals⟩ := opens_parameter p (hn p hp) t
    exact parted_blank hopen hequals
  · obtain ⟨hopen, -⟩ := opens_parameter p (hn p hp) []
    rwa [List.append_nil] at hopen

/-- Where the parameters with a default start, none without default is read. -/
theorem plainParameter_refuses_next {ps : List Parameter} (h : ∀ p ∈ ps, p.Defaulted)
    (ht : Refuses (spaced plainParameter : Parser ω Parameter) (tail.dropWhile isSpace)) :
    Refuses (spaced plainParameter : Parser ω Parameter)
      (((ps.flatMap fun p => ' ' :: p.written) ++ tail).dropWhile isSpace) := by
  cases ps with
  | nil => exact ht
  | cons p ps =>
    rw [List.flatMap_cons, List.append_assoc, List.cons_append, List.dropWhile_cons_of_pos rfl]
    obtain ⟨hopen, -⟩ := opens_parameter p (h p List.mem_cons_self).1
      ((ps.flatMap fun p => ' ' :: p.written) ++ tail)
    have hno := plainParameter_refuses (ω := ω) (h p List.mem_cons_self)
      ((ps.flatMap fun p => ' ' :: p.written) ++ tail)
    rw [hopen.dropSpaces]
    rw [← hopen.dropSpaces] at hno
    exact .spaced hno

end Heading

section Recipe

omit [Listener ω] in
/-- The mark of a recipe that is not echoed. -/
theorem mute_reads {r : Recipe} (hn : IsName r.name) (rest : List Char) :
    ∃ o, Reads (optional (spaced (word "@")) : Parser ω (Option String))
      ((if r.echo then [] else ['@']) ++ (r.name.toList ++ rest)) o (r.name.toList ++ rest) ∧
      o.isNone = r.echo := by
  have hopen := (opens_name hn).append rest
  cases hr : r.echo with
  | false => exact ⟨some "@", .optional ((Reads.word "@" _).spaced rfl hopen.dropSpaces), rfl⟩
  | true =>
    obtain ⟨c, cs, hc, hstart, -⟩ := hn
    have hno : Refuses (word "@" : Parser ω String) ((r.name.toList ++ rest).dropWhile isSpace) := by
      rw [hopen.dropSpaces, hc]
      exact word_refuses "@" rfl (ne_of_isNameStart hstart rfl).symm
    exact ⟨none, Refuses.optional (.spaced hno), rfl⟩



/-- **A recipe is its heading and its body.** -/
theorem recipe_reads {r : Recipe} (h : r.Headed) {d : Datum} {lines : Option (List Line)}
    (hend : Reads (lineEnd : Parser ω Datum) ('\n' :: cs) d mid)
    (hbody : Reads (optional (body (depth + 1)) : Parser ω (Option (List Line))) mid lines rest)
    (hlines : lines.getD [] = r.body) (hrest : Avoids startsNewline rest) :
    Reads (recipe (depth + 1) : Parser ω Recipe) (r.heading ++ '\n' :: cs) r rest := by
  obtain ⟨required, defaulted, hps, hrequired, hdefaulted⟩ := h.parameters
  -- what is left after the parameters, after the colon, and after the dependencies before
  set t₃ := r.afterText ++ '\n' :: cs with ht₃
  set t₂ := (r.before.flatMap fun d => ' ' :: d.written) ++ t₃ with ht₂
  set t₁ := r.variadicText ++ ':' :: t₂ with ht₁
  set t₀ := (defaulted.flatMap fun p => ' ' :: p.written) ++ t₁ with ht₀
  have htext : r.heading ++ '\n' :: cs = (if r.echo then [] else ['@']) ++ (r.name.toList ++
      ((required.flatMap fun p => ' ' :: p.written) ++ t₀)) := by
    unfold Recipe.heading
    rw [hps, ht₀, ht₁, ht₂, ht₃]
    simp only [List.flatMap_append, List.append_assoc, List.cons_append]
  obtain ⟨hparted₁, hplain₁, hdefault₁⟩ := variadicText_next (ω := ω) r (depth + 1) t₂
  have hparted₀ : Parted t₀ := parted_parameters (fun p hp => (hdefaulted p hp).1) hparted₁
  have hparted := parted_parameters (fun p hp => (hrequired p hp).1) hparted₀
  obtain ⟨mute, hmute, hecho⟩ := mute_reads (ω := ω) h.name
    ((required.flatMap fun p => ' ' :: p.written) ++ t₀)
  have hname : Reads (spaced name : Parser ω String) (r.name.toList ++ _) r.name _ :=
    (name_reads h.name hparted.name).spaced ((opens_name h.name).append _).dropSpaces rfl
  have hplain := parameters_repeat (fun p hp => (hrequired p hp).1)
    (fun p hp t ht => plainParameter_reads (ω := ω) (hrequired p hp) ht) hparted₀
    (plainParameter_refuses_next hdefaulted hplain₁)
  have hdefault := parameters_repeat (fun p hp => (hdefaulted p hp).1)
    (fun p hp t ht => defaultParameter_reads (ω := ω) (hdefaulted p hp) ht (depth + 1)) hparted₁ hdefault₁
  have hvariadic := optionalVariadic_reads (ω := ω) h.variadic (depth + 1) t₂
  have hcolon : Reads (spaced (word ":") : Parser ω String) (':' :: t₂) ":" (t₂.dropWhile isSpace) :=
    (Reads.word ":" t₂).spaced rfl rfl
  obtain ⟨htail₃, c, w, hnext, hstart, hparen, hspace⟩ := afterText_next r cs
  have hbefore := dependencies_repeat (ω := ω) depth h.before htail₃ hnext hstart hparen hspace
  rw [← hnext] at hbefore
  obtain ⟨after, hafter, hafterEq⟩ := afterDependencies_read (ω := ω) depth h.after cs
  have hnewlines : Repeats (newline : Parser ω String) rest [] rest := .stop (newline_refuses hrest)
  have hr : (⟨mute.isNone, r.name, required ++ defaulted, r.variadic, r.before, after.getD [],
      lines.getD []⟩ : Recipe) = r := by
    rw [hecho, hafterEq, hlines, ← hps]
  rw [htext]
  refine .traced (hmute.bind (hname.bind (hplain.many.bind (hdefault.many.bind ?_))))
  refine hvariadic.bind (hcolon.bind (hbefore.many.bind (hafter.bind ?_)))
  refine .bind (.orElse_left (hend.map _)) (hbody.bind ?_)
  simp only [hr, Recipe.check_eq_ok.2 h.variadicDefault]
  exact hnewlines.many.bind (.pure r rest)

end Recipe

end Parsing

end Justfile
