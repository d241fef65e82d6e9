import Justfile.Proofs.LineEnds
import Justfile.Proofs.Stages

/-!
# The form of what is read

Whatever justfile is read, its items have a common form: they declare something, all names are names,
parameters without default stand before those with one, and lines have text.

* `Item.Shaped`: the form of an item, over a property of its expressions.
* `recipe_shaped`: the form of recipes, one lemma for each of their parts.
* `lineEnd_fails`: after attributes no line ends, so that every item declares something.
* `parse_shaped`: every item of a justfile has this form, for every grammatical property.
* `parse_formed`: every item has this form, and its expressions are formed.
-/

namespace Justfile

open Parsing Parsing.Parser

namespace Recipe

/-- The parameters before the first one with a default, where those with one stand last. -/
theorem required_eq {r : Recipe} {plain defaulted : List Parameter} (h : r.parameters = plain ++ defaulted)
    (hplain : ∀ p ∈ plain, p.default = none) (hdefaulted : ∀ p ∈ defaulted, p.default ≠ none) :
    r.required = plain.length := by
  have hno : ∀ p ∈ plain, p.default.isNone = true := by
    intro p hp
    rw [hplain p hp]
    rfl
  have hstop : defaulted.takeWhile (fun p => p.default.isNone) = [] := by
    cases defaulted with
    | nil => rfl
    | cons p ps => exact List.takeWhile_cons_of_neg (by simpa using hdefaulted p List.mem_cons_self)
  unfold required
  rw [h, List.takeWhile_append_of_pos hno, hstop, List.append_nil]

theorem defaulted_eq_zero {r : Recipe} : r.defaulted = 0 ↔ ∀ p ∈ r.parameters, p.default = none := by
  have hprefix : r.parameters.takeWhile (fun p => p.default.isNone) <+: r.parameters :=
    List.takeWhile_prefix _
  -- the parameters without default are a start of all of them, and all if there are as many
  have hle : r.required ≤ r.parameters.length := hprefix.length_le
  constructor
  · intro hzero p hp
    have hlen : r.parameters.length ≤ r.required := by
      unfold defaulted at hzero
      omega
    have hall := hprefix.eq_of_length_le hlen
    rw [← hall] at hp
    simpa using List.mem_takeWhile_imp hp
  · intro hnone
    have hall : r.required = r.parameters.length := by
      refine required_eq (List.append_nil _).symm hnone fun p hp => absurd hp List.not_mem_nil
    unfold defaulted
    omega

/-- **What the check of a recipe asks**: a parameter for the remaining arguments without default stands
only after parameters without default. -/
theorem check_eq_ok {r : Recipe} : r.check = .ok () ↔
    ∀ v ∈ r.variadic, v.param.default = none → ∀ p ∈ r.parameters, p.default = none := by
  rw [← defaulted_eq_zero]
  unfold check
  cases r.variadic with
  | none => exact ⟨fun _ v hv => (by cases hv), fun _ => rfl⟩
  | some v =>
    cases hd : v.param.default with
    | some e =>
      refine ⟨fun _ w hw hnone => ?_, fun _ => by simp only [hd]; rfl⟩
      cases hw
      rw [hd] at hnone
      cases hnone
    | none =>
      by_cases hzero : r.defaulted = 0
      · exact ⟨fun _ _ _ _ => hzero, fun _ => by simp only [hd, hzero]; rfl⟩
      · refine ⟨fun h => ?_, fun h => absurd (h v rfl hd) hzero⟩
        have hne : (r.defaulted != 0) = true := bne_iff_ne.2 hzero
        simp only [hd, hne] at h
        cases h

end Recipe

variable (P : Expr → Prop)

/-- A parameter with a name and with `P` for its default. -/
def Parameter.Shaped (p : Parameter) : Prop :=
  IsName p.name ∧ ∀ e ∈ p.default, P e

/-- A dependency with a name and with `P` for its arguments. -/
def Dependency.Shaped (d : Dependency) : Prop :=
  IsName d.name ∧ ∀ e ∈ d.args, P e

/-- Text that is not empty and stands on one line, or an interpolation of an expression with `P`. -/
def Fragment.Shaped : Fragment → Prop
  | .text s => s ≠ "" ∧ ∀ c ∈ s.toList, c ≠ '\r' ∧ c ≠ '\n'
  | .interpolation e => P e

/-- A line that is not empty. -/
def Line.Shaped (l : Line) : Prop :=
  l.parts ≠ [] ∧ ∀ f ∈ l.parts, f.Shaped P

/-- A recipe whose parameters are divided into those without and those with a default, and whose
parameter for the remaining arguments has a default if another one has. -/
structure Recipe.Shaped (r : Recipe) : Prop where
  name : IsName r.name
  parameters : ∀ p ∈ r.parameters, p.Shaped P
  required : ∀ p ∈ r.parameters.take r.required, p.default = none
  defaulted : ∀ p ∈ r.parameters.drop r.required, p.default ≠ none
  variadic : ∀ v ∈ r.variadic, v.param.Shaped P
  variadicDefault : ∀ v ∈ r.variadic, v.param.default = none → ∀ p ∈ r.parameters, p.default = none
  before : ∀ d ∈ r.before, d.Shaped P
  after : ∀ d ∈ r.after, d.Shaped P
  lines : ∀ l ∈ r.body, l.Shaped P

/-- Something is declared, under a name if it has one, and expressions have `P`. -/
def Declaration.Shaped : Declaration → Prop
  | .recipe r => r.Shaped P
  | .alias name target => IsName name ∧ IsName target
  | .assignment name value => IsName name ∧ P value
  | .exported name value => IsName name ∧ P value
  | .setting _ _ => True
  | .comment _ => True
  | .stray _ => False

/-- An item with names for attributes that declares something. -/
def Item.Shaped (i : Item) : Prop :=
  (∀ n ∈ i.attributes, IsName n) ∧ i.declaration.Shaped P

variable {P}

/-- The expressions of a declaration have `P`. -/
theorem Declaration.Shaped.exprs {d : Declaration} (h : d.Shaped P) : ∀ e ∈ d.exprs, P e := by
  cases d with
  | recipe r =>
    -- in defaults, in the arguments of dependencies, and in lines
    intro e he
    rcases List.mem_append.1 he with he | he
    · rcases List.mem_append.1 he with he | he
      · obtain ⟨q, hq, hd⟩ := List.mem_filterMap.1 he
        rcases List.mem_append.1 hq with hq | hq
        · obtain ⟨p, hp, rfl⟩ := List.mem_map.1 hq
          exact (h.parameters p hp).2 e hd
        · obtain ⟨v, hv, rfl⟩ := Option.map_eq_some_iff.1 (Option.mem_toList.1 hq)
          exact (h.variadic v hv).2 e hd
      · obtain ⟨d, hd, he⟩ := List.mem_flatMap.1 he
        rcases List.mem_append.1 hd with hd | hd
        · exact (h.before d hd).2 e he
        · exact (h.after d hd).2 e he
    · obtain ⟨l, hl, he⟩ := List.mem_flatMap.1 he
      obtain ⟨f, hf, hfe⟩ := List.mem_filterMap.1 he
      have hshape := (h.lines l hl).2 f hf
      cases f with
      | text s => cases hfe
      | interpolation e' => cases hfe; exact hshape
  | assignment name value =>
    intro e he
    rw [List.mem_singleton.1 he]
    exact h.2
  | exported name value =>
    intro e he
    rw [List.mem_singleton.1 he]
    exact h.2
  | «alias» name target => exact fun e he => absurd he List.not_mem_nil
  | setting name value => exact fun e he => absurd he List.not_mem_nil
  | comment s => exact fun e he => absurd he List.not_mem_nil
  | stray datum => exact h.elim

namespace Parsing

variable {ω : Type} [Listener ω] (hP : Grammatical P) (depth : Nat)

section Recipes

theorem plainParameter_shaped :
    Yields (plainParameter : Parser ω Parameter) fun p => p.Shaped P ∧ p.default = none := by
  unfold plainParameter
  refine .traced (.after _ fun _ => name_isName.bind fun n hn => .after _ fun _ => .pure ⟨⟨hn, ?_⟩, rfl⟩)
  exact fun e he => by cases he

include hP

theorem defaultParameter_shaped :
    Yields (defaultParameter depth : Parser ω Parameter) fun p => p.Shaped P ∧ p.default ≠ none := by
  have hvalue : Yields (value depth : Parser ω Expr) P := valueRule_yields hP (expression_yields hP depth).1
  unfold defaultParameter
  refine .traced (.after _ fun _ => name_isName.bind fun n hn => .after _ fun _ => ?_)
  refine hvalue.bind fun e he => .pure ⟨⟨hn, fun e' he' => ?_⟩, fun hnone => by cases hnone⟩
  cases he'
  exact he

theorem variadicParameter_shaped :
    Yields (variadicParameter depth : Parser ω Variadic) fun v => v.param.Shaped P := by
  have hparam : Yields (anyParameter depth : Parser ω Parameter) fun p => p.Shaped P :=
    (plainParameter_shaped.mono fun _ h => h.1).orElse ((defaultParameter_shaped hP depth).mono fun _ h => h.1)
  unfold variadicParameter
  exact .traced (.orElse (.after _ fun _ => hparam.bind fun _ h => .pure h)
    (.after _ fun _ => hparam.bind fun _ h => .pure h))

theorem dependency_shaped : Yields (dependency depth : Parser ω Dependency) fun d => d.Shaped P := by
  have hexpr : Yields (expression depth : Parser ω Expr) P := (expression_yields hP depth).1
  unfold dependency
  refine .traced (.orElse (.map (name_isName.mono fun n hn => ⟨hn, ?_⟩)) ?_)
  · exact fun e he => absurd he List.not_mem_nil
  · exact .after _ fun _ => name_isName.bind fun n hn => hexpr.spread.many.bind fun _ h =>
      .after _ fun _ => .pure ⟨hn, h⟩

theorem line_shaped : Yields (line depth : Parser ω Line) fun l => l.Shaped P := by
  have hbraces : Yields (doubledBraces : Parser ω Fragment) fun f => f.Shaped P := by
    have hline : "\x7b\x7b".toList.all (fun c => c != '\r' && c != '\n') = true := by decide
    refine .map ((Yields.trivial _).mono fun _ _ => ⟨by decide, fun c hc => ?_⟩)
    simpa using List.all_eq_true.1 hline c hc
  have hexpr : Yields (expression depth : Parser ω Expr) P := (expression_yields hP depth).1
  have hinterpolation : Yields (interpolation depth : Parser ω Fragment) fun f => f.Shaped P := by
    unfold interpolation
    exact .traced (.after _ fun _ => hexpr.spread.bind fun _ h => .after _ fun _ => .pure h)
  have htext : Yields (plainText depth : Parser ω Fragment) fun f => f.Shaped P := by
    refine .map ((Yields.untilEnd (Yields.satisfy _) _ 1).mono fun cs h => ⟨fun hnil => ?_, fun c hc => ?_⟩)
    · rw [← String.toList_inj, String.toList_ofList] at hnil
      rw [hnil] at h
      exact absurd h.1 (by decide)
    · rw [String.toList_ofList] at hc
      have hok := h.2 c hc
      simp only [Bool.and_eq_true, bne_iff_ne] at hok
      exact hok
  unfold line
  refine .traced (.after _ fun _ => ?_)
  refine ((hbraces.orElse (hinterpolation.orElse htext)).many1.and (Yields.many1_ne_nil _)).bind
    fun parts h => .after _ fun _ => .pure ⟨h.2, h.1⟩

theorem body_shaped : Yields (body depth : Parser ω (List Line)) fun ls => ∀ l ∈ ls, l.Shaped P := by
  unfold body
  exact .traced (.after _ fun _ => .many1 (.after _ fun _ => line_shaped hP depth))

/-- **Recipes have their form.** The first parameters are read without default, the others with one,
and a recipe that does not pass its check ends the parse. -/
theorem recipe_shaped : Yields (recipe depth : Parser ω Recipe) fun r => r.Shaped P := by
  unfold recipe
  refine .traced (.after _ fun mute => name_isName.spaced.bind fun n hname => ?_)
  refine (plainParameter_shaped (P := P)).spaced.many.bind fun plain hplain => ?_
  refine (defaultParameter_shaped hP depth).spaced.many.bind fun defaulted hdefaulted => ?_
  refine (variadicParameter_shaped hP depth).spaced.optional.bind fun variadic hvariadic => ?_
  refine .after _ fun _ => (dependency_shaped hP depth).spaced.many.bind fun before hbefore => ?_
  have hafter : Yields (afterDependencies depth : Parser ω (List Dependency)) fun ds => ∀ d ∈ ds, d.Shaped P :=
    .after _ fun _ => (dependency_shaped hP depth).spaced.many1
  refine hafter.optional.bind fun after hafter => .after _ fun _ => ?_
  refine (body_shaped hP depth).optional.bind fun lines hlines => ?_
  set r : Recipe :=
    ⟨mute.isNone, n, plain ++ defaulted, variadic, before, after.getD [], lines.getD []⟩ with hr
  -- parameters with a default are read after all those without one
  have hrequired : r.required = plain.length :=
    Recipe.required_eq (hr ▸ rfl) (fun p hp => (hplain p hp).2) fun p hp => (hdefaulted p hp).2
  change Yields (if _ then _ else _) _
  split
  · exact (Yields.reject n fun _ => False).bind fun _ hfalse => hfalse.elim
  · rename_i hcheck
    have hok : r.check = .ok () := by
      cases hc : r.check with
      | ok u => rfl
      | error f => exact (hcheck f hc).elim
    refine .after _ fun _ => .pure ?_
    refine ⟨hname, ?_, ?_, ?_, hvariadic, Recipe.check_eq_ok.1 hok, hbefore, ?_, ?_⟩
    · exact fun p hp => (List.mem_append.1 hp).elim (fun h => (hplain p h).1) fun h => (hdefaulted p h).1
    · rw [hrequired]
      intro p hp
      rw [show r.parameters = plain ++ defaulted from rfl, List.take_left] at hp
      exact (hplain p hp).2
    · rw [hrequired]
      intro p hp
      rw [show r.parameters = plain ++ defaulted from rfl, List.drop_left] at hp
      exact (hdefaulted p hp).2
    · cases after with
      | none => exact fun d hd => absurd hd List.not_mem_nil
      | some ds => exact hafter ds rfl
    · cases lines with
      | none => exact fun l hl => absurd hl List.not_mem_nil
      | some ls => exact hlines ls rfl

end Recipes

section Items

variable {P : Expr → Prop} {c next : Cursor} {t t' : ω} {far : Nat}

theorem attributes_names : Yields (attributes : Parser ω (List String)) fun ns => ∀ n ∈ ns, IsName n := by
  have hrow : Yields (attributeRow : Parser ω (List String)) fun ns => ∀ n ∈ ns, IsName n :=
    .after _ fun _ => (name_isName.sepBy _).spread.bind fun _ h => .after _ fun _ => .after _ fun _ =>
      .after _ fun _ => .pure h
  refine .tracedBy (.map (hrow.many.mono fun rows hrows n hn => ?_))
  obtain ⟨row, hrow, hn⟩ := List.mem_flatten.1 hn
  exact hrows row hrow n hn

/-- Attributes can always be read: there may be none. -/
theorem attributes_neverFails : NeverFails (attributes : Parser ω (List String)) :=
  .tracedBy ((NeverFails.many _).map _)

theorem assignment_shaped (hP : Grammatical P) (depth : Nat) :
    Yields (assignment depth : Parser ω (String × Expr)) fun a => IsName a.1 ∧ P a.2 := by
  have hexpr : Yields (expression depth : Parser ω Expr) P := (expression_yields hP depth).1
  unfold assignment
  exact .tracedBy (name_isName.spaced.bind fun _ hn => .after _ fun _ => hexpr.spaced.bind fun _ he =>
    .after _ fun _ => .pure ⟨hn, he⟩)

/-- How something is declared: what the rule for it has read. -/
inductive Declares (depth : Nat) (c next : Cursor) (t t' : ω) : Declaration → Prop where
  | recipe {r : Recipe} {far : Nat} (h : (recipe depth : Parser ω Recipe).run c t = (.done r next far, t')) :
    Declares depth c next t t' (.recipe r)
  | alias {n target : String} (hn : IsName n) (htarget : IsName target) : Declares depth c next t t' (.alias n target)
  | assignment {n : String} {e : Expr} {t₁ : ω} {far : Nat}
      (h : (assignment depth : Parser ω (String × Expr)).run c t₁ = (.done (n, e) next far, t')) :
    Declares depth c next t t' (.assignment n e)
  | exported {n : String} {e : Expr} {c₁ : Cursor} {t₁ t₂ : ω} {far : Nat}
      (h : (assignment depth : Parser ω (String × Expr)).run c₁ t₁ = (.done (n, e) next far, t₂)) :
    Declares depth c next t t' (.exported n e)
  | setting {n : String} {v : SettingValue} {t₁ : ω} {far : Nat}
      (h : (setting : Parser ω Declaration).run c t₁ = (.done (.setting n v) next far, t')) :
    Declares depth c next t t' (.setting n v)
  | comment {w : String} {t₁ : ω} {far : Nat}
      (h : (comment : Parser ω Declaration).run c t₁ = (.done (.comment w) next far, t')) :
    Declares depth c next t t' (.comment w)
  | stray {d : Datum} {t₁ t₂ : ω} {far far' : Nat}
      (hcomment : (comment : Parser ω Declaration).run c t₁ = (.failed far, t₂))
      (h : (lineEnd : Parser ω Datum).run c t₂ = (.done d next far', t')) : Declares depth c next t t' (.stray d)

theorem alias_yields :
    Yields (aliasRule : Parser ω Declaration) fun d => ∃ n target, d = .alias n target ∧ IsName n ∧ IsName target := by
  unfold aliasRule
  exact .traced (.after _ fun _ => .after _ fun _ => name_isName.bind fun _ hn => .after _ fun _ =>
    name_isName.bind fun _ ht => .after _ fun _ => .pure ⟨_, _, rfl, hn, ht⟩)

theorem comment_yields : Yields (comment : Parser ω Declaration) fun d => ∃ w, d = .comment w := by
  unfold comment
  exact .traced (.after _ fun _ => .after _ fun _ => .after _ fun _ => .pure ⟨_, rfl⟩)

theorem setting_yields : Yields (setting : Parser ω Declaration) fun d => ∃ n v, d = .setting n v := by
  have hone : ∀ (n : String) (p : Parser ω SettingValue), Yields (settingNamed n p) fun d => ∃ n v, d = .setting n v :=
    fun n p => .after _ fun _ => .after _ fun _ => .after _ fun _ => .after _ fun _ => .pure ⟨_, _, rfl⟩
  unfold setting
  refine .traced (Yields.bind ?_ fun _ h => .after _ fun _ => .pure h)
  iterate 9 refine (hone _ _).orElse ?_
  exact hone _ _

/-- **Every declaration is read by the rule for it.** -/
theorem declares_of_declaration {depth : Nat} {d : Declaration}
    (h : (declaration depth : Parser ω Declaration).run c t = (.done d next far, t')) :
    Declares depth c next t t' d := by
  -- the alternatives in their order
  rcases orElse_eq_done h with h | ⟨_, _, _, -, h⟩
  · obtain ⟨r, c', far', t₁, _, hrecipe, h⟩ := bind_eq_done h
    cases h
    exact .recipe hrecipe
  rcases orElse_eq_done h with h | ⟨_, _, _, -, h⟩
  · obtain ⟨n, target, rfl, hn, htarget⟩ := alias_yields _ _ _ _ _ _ h
    exact .alias hn htarget
  rcases orElse_eq_done h with h | ⟨_, _, _, -, h⟩
  · obtain ⟨a, c', far', t₁, _, hassignment, h⟩ := bind_eq_done h
    cases h
    exact .assignment hassignment
  rcases orElse_eq_done h with h | ⟨_, _, _, -, h⟩
  · obtain ⟨t₁, h⟩ := tracedBy_eq_done h
    obtain ⟨_, _, _, _, _, -, h⟩ := bind_eq_done h
    obtain ⟨_, _, _, _, _, -, h⟩ := bind_eq_done h
    obtain ⟨a, c', far', t₂, _, hassignment, h⟩ := bind_eq_done h
    cases h
    exact .exported hassignment
  rcases orElse_eq_done h with h | ⟨_, _, _, -, h⟩
  · obtain ⟨n, v, rfl⟩ := setting_yields _ _ _ _ _ _ h
    exact .setting h
  rcases orElse_eq_done h with h | ⟨_, _, _, hcomment, h⟩
  · obtain ⟨w, rfl⟩ := comment_yields _ _ _ _ _ _ h
    exact .comment h
  · obtain ⟨_, _, _, _, _, hend, h⟩ := bind_eq_done h
    cases h
    exact .stray hcomment hend

/-- **No line ends where no blank stands and no comment starts.** -/
theorem lineEnd_fails [Subsingleton ω] (hblank : Avoids Text.isBlank c.rest) {t₀ : ω} {far₀ : Nat}
    (hcomment : (comment : Parser ω Declaration).run c t₀ = (.failed far₀, t)) {d : Datum} :
    (lineEnd : Parser ω Datum).run c t ≠ (.done d next far, t') := by
  intro hend
  obtain ⟨t₁, hend⟩ := tracedBy_eq_done hend
  rcases orElse_eq_done hend with h | ⟨_, t₂, _, -, h⟩
  · -- the comment that was not read before is not read now
    obtain ⟨_, _, _, _, _, h, -⟩ := bind_eq_done h
    rw [Subsingleton.elim t t₀, hcomment] at h
    cases (Prod.mk.inj h).1
  · obtain ⟨_, _, _, _, _, h, -⟩ := bind_eq_done h
    obtain ⟨_, _, _, _, _, h, -⟩ := bind_eq_done h
    -- a newline would begin with a blank
    obtain ⟨_, _, hno⟩ := newline_refuses (ω := ω) (hblank.mono fun c => startsNewline_of_not_blank) c.pos t₂
    rw [hno] at h
    cases (Prod.mk.inj h).1

/-- What is declared where no blank stands. -/
theorem declaration_shaped [Subsingleton ω] (hP : Grammatical P) {depth : Nat} {d : Declaration}
    (hblank : Avoids Text.isBlank c.rest)
    (h : (declaration depth : Parser ω Declaration).run c t = (.done d next far, t')) : d.Shaped P := by
  cases declares_of_declaration h with
  | recipe hrun => exact recipe_shaped hP depth _ _ _ _ _ _ hrun
  | «alias» hn htarget => exact ⟨hn, htarget⟩
  | assignment hrun => exact assignment_shaped hP depth _ _ _ _ _ _ hrun
  | exported hrun => exact assignment_shaped hP depth _ _ _ _ _ _ hrun
  | setting _ => exact True.intro
  | comment _ => exact True.intro
  -- where nothing else is read a line would end
  | stray hcomment hrun => exact absurd hrun (lineEnd_fails hblank hcomment)

/-- **Items have their form.** The attributes before an item take all blanks, so something is declared. -/
theorem item_shaped [Subsingleton ω] (hP : Grammatical P) (depth : Nat) :
    Yields (item depth : Parser ω Item) fun i => i.Shaped P := by
  intro c t i next far t' h
  obtain ⟨t₁, h⟩ := tracedBy_eq_done h
  obtain ⟨names, c₁, far₁, t₂, _, hnames, h⟩ := bind_eq_done h
  obtain ⟨d, c₂, _, t₃, _, hdeclaration, h⟩ := bind_eq_done h
  obtain ⟨hi, -⟩ := Prod.mk.inj h
  cases hi
  rcases optional_eq_done hnames with ⟨ns, rfl, hspread⟩ | ⟨-, -, hfail⟩
  · exact ⟨attributes_names.spread _ _ _ _ _ _ hspread, declaration_shaped hP (spread_leaves hspread) hdeclaration⟩
  · exact absurd hfail (attributes_neverFails.spread _ _ _ _)

theorem file_shaped [Subsingleton ω] (hP : Grammatical P) (depth : Nat) :
    Yields (file depth : Parser ω (List Item)) fun is => ∀ i ∈ is, i.Shaped P := by
  unfold file
  exact (item_shaped hP depth).many.bind fun _ h => .after _ fun _ => .after _ fun _ => .pure h

end Items

end Parsing

variable {text : String} {items : List Item}

/-- Every item of a justfile has its form, with every grammatical property for its expressions. -/
theorem parse_shaped (hP : Grammatical P) (h : parse text = .ok items) : ∀ i ∈ items, i.Shaped P := by
  obtain ⟨next, far, hrun⟩ := parse_eq_ok h
  exact file_shaped hP _ _ _ _ _ _ _ hrun

/-- **Every expression of a justfile is named.** -/
theorem parse_named (h : parse text = .ok items) : ∀ i ∈ items, ∀ e ∈ i.declaration.exprs, e.Named :=
  fun i hi => (parse_shaped grammatical_named h i hi).2.exprs

/-- So is every expression inside one. -/
theorem named_of_mem_exprNodes (h : parse text = .ok items) {e : Expr} (he : e ∈ exprNodes items) : e.Named := by
  obtain ⟨i, hi, he⟩ := List.mem_flatMap.1 he
  obtain ⟨e₀, he₀, he⟩ := List.mem_flatMap.1 he
  exact (parse_named h i hi e₀ he₀).of_mem_nodes e he

/-- **The form of a justfile.** Every item that is read declares something. Its names are names, its
recipes have their parameters with a default last, its lines are not empty, and its expressions are
formed. -/
theorem parse_formed (text : String) (items : List Item) (h : parse text = .ok items) :
    ∀ i ∈ items, i.Shaped Expr.Formed :=
  parse_shaped grammatical_formed h

/-- A justfile with an item of each kind, written with comments, blanks and empty lines. -/
def mixedText : String :=
  "# start\n\n\t[private,\n no-cd]\nalias b:=build # twice\n" ++
  "x := if \"a\" != y \x7b `q` \x7d else \x7b f('z', x) \x7d\n" ++
  "  export v := x / 'w'\nset fallback\n\n" ++
  "@build x $z=v *ys='1': (d a) && e\n  @-echo \x7b\x7b x \x7d\x7d !\n"

def mixedItems : List Item :=
  [⟨[], .comment "start"⟩,
    ⟨["private", "no-cd"], .alias "b" "build"⟩,
    ⟨[], .assignment "x" (.cond .unequal (.text "a") (.var "y") (.backtick "q")
      (.call "f" [.text "z", .var "x"]))⟩,
    ⟨[], .exported "v" (.path (.var "x") (.text "w"))⟩,
    ⟨[], .setting "fallback" (.flag true)⟩,
    ⟨[], .recipe {
      echo := false
      name := "build"
      parameters := [⟨false, "x", none⟩, ⟨true, "z", some (.var "v")⟩]
      variadic := some ⟨.star, ⟨false, "ys", some (.text "1")⟩⟩
      before := [⟨"d", [.var "a"]⟩]
      after := [⟨"e", []⟩]
      body := [⟨some "@-", [.text "echo ", .interpolation (.var "x"), .text " !"]⟩] }⟩]

theorem parse_mixedText : parse mixedText = .ok mixedItems := by
  decide +kernel

theorem parse_formed_mixed :
    parse mixedText = .ok mixedItems ∧ ∀ i ∈ mixedItems, i.Shaped Expr.Formed :=
  ⟨parse_mixedText, parse_formed mixedText mixedItems parse_mixedText⟩

end Justfile
