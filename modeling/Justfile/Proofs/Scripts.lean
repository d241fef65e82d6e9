import Justfile.Proofs.Coverage
import Justfile.Proofs.Form
import Justfile.Proofs.Legible
import Justfile.Proofs.TextLines

/-!
# Programs that have a script

Making the script of a program can fail at an expression without a word or a written form, and at a
heading that does not fit into its box. Neither happens for what is read from a justfile: its
expressions are formed, and the heading is short enough whatever the date is.

* `length_le_longest`, `bannerText_fits`: the heading of a script fits.
* `Program.formed_of_ofItems`: what a program takes over from its items is formed.
* `evaluate_succeeds`: a named expression has a word.
* `ofProgram_succeeds`: a formed program has a script, by one lemma for each of its functions.
-/

namespace Justfile

open Shell

namespace Text

/-- The length of the line that a character goes on, and the length of the longest line. -/
def lineStep : Nat × Nat → Char → Nat × Nat
  | (current, longest), c =>
    if isLineBreak c then (0, longest) else (current + 1, max longest (current + 1))

theorem lineStep_lineBreak {c : Char} (h : isLineBreak c = true) (current longest : Nat) :
    lineStep (current, longest) c = (0, longest) := by
  simp only [lineStep, h, if_true]

theorem lineStep_other {c : Char} (h : isLineBreak c = false) (current longest : Nat) :
    lineStep (current, longest) c = (current + 1, max longest (current + 1)) := by
  simp [lineStep, h]

theorem longest_mono (cs : List Char) (current longest : Nat) :
    longest ≤ (cs.foldl lineStep (current, longest)).2 := by
  induction cs generalizing current longest with
  | nil => exact Nat.le_refl longest
  | cons c cs ih =>
    rw [List.foldl_cons]
    cases hc : isLineBreak c with
    | true =>
      rw [lineStep_lineBreak hc]
      exact ih 0 longest
    | false =>
      rw [lineStep_other hc]
      exact Nat.le_trans (Nat.le_max_left _ _) (ih (current + 1) _)

/-- **No line is longer than the longest.** -/
theorem length_le_longest {line cs : List Char} {longest : Nat} (h : line.length ≤ longest) :
    ∀ l ∈ splitLinesFrom line cs, l.length ≤ (cs.foldl lineStep (line.length, longest)).2 := by
  fun_induction splitLinesFrom line cs generalizing longest with
  | case1 => exact fun l hl => absurd hl List.not_mem_nil
  | case2 line =>
    intro l hl
    rw [List.mem_singleton.1 hl, List.length_reverse]
    exact h
  | case3 line cs ih =>
    -- a carriage return with its line feed is one end of a line, and nothing stands between them
    intro l hl
    rw [List.foldl_cons, lineStep_lineBreak (by decide), List.foldl_cons, lineStep_lineBreak (by decide)]
    rcases List.mem_cons.1 hl with rfl | hl
    · rw [List.length_reverse]
      exact Nat.le_trans h (longest_mono cs 0 longest)
    · exact ih (Nat.zero_le longest) l hl
  | case4 line c cs _ hc ih =>
    intro l hl
    rw [List.foldl_cons, lineStep_lineBreak hc]
    rcases List.mem_cons.1 hl with rfl | hl
    · rw [List.length_reverse]
      exact Nat.le_trans h (longest_mono cs 0 longest)
    · exact ih (Nat.zero_le longest) l hl
  | case5 line c cs _ hc ih =>
    rw [List.foldl_cons, lineStep_other (by simpa using hc)]
    exact ih (Nat.le_max_right longest _)

/-- A text without line breaks goes on a line. -/
theorem foldl_lineStep {cs : List Char} (h : ∀ c ∈ cs, isLineBreak c = false) {current longest : Nat}
    (hle : current ≤ longest) : cs.foldl lineStep (current, longest) =
      (current + cs.length, max longest (current + cs.length)) := by
  induction cs generalizing current longest with
  | nil => rw [List.foldl_nil, List.length_nil, Nat.add_zero, Nat.max_eq_left hle]
  | cons c cs ih =>
    rw [List.foldl_cons, lineStep_other (h c List.mem_cons_self),
      ih (fun c' hc' => h c' (List.mem_cons_of_mem c hc')) (Nat.le_max_right _ _), List.length_cons]
    ext <;> simp only <;> omega

/-- A heading whose lines are short enough fits into its box. -/
theorem heading?_fits {s : String} (h : (s.toList.foldl lineStep (0, 0)).2 + 2 ≤ boxWidth) :
    ∃ box, heading? s = .ok box := by
  have hpad : ∀ line ∈ headingLines s, ∃ row, pad .box line = .ok row := by
    intro line hline
    obtain ⟨l, hl, rfl⟩ := List.mem_map.1 hline
    have hlen : ("# " ++ String.ofList l).length = l.length + 2 := by
      rw [String.length_append, @String.length_ofList l, Nat.add_comm]
      rfl
    have hfit : ¬ ((("# " ++ String.ofList l).length : Int) > Padding.box.width) := by
      have hwidth : Padding.box.width = (boxWidth : Int) := rfl
      have hle : l.length ≤ (s.toList.foldl lineStep (0, 0)).2 := length_le_longest (Nat.le_refl 0) l hl
      rw [hlen, hwidth]
      omega
    refine ⟨_, if_neg ?_⟩
    rw [decide_eq_false hfit]
    decide
  obtain ⟨rows, hrows⟩ := exists_mapM_eq_ok hpad
  refine ⟨framed rows, ?_⟩
  unfold heading?
  rw [hrows]
  rfl

end Text

/-- A date such as `2000-01-02`: ten digits and dashes. -/
structure IsDate (date : String) : Prop where
  length : date.length = 10
  chars : ∀ c ∈ date.toList, c.isDigit = true ∨ c = '-'

theorem isDate_sample : IsDate "2000-01-02" := by
  have hchars : "2000-01-02".toList.all (fun c => c.isDigit || c == '-') = true := by decide
  refine ⟨rfl, fun c hc => ?_⟩
  simpa using List.all_eq_true.1 hchars c hc

theorem IsDate.no_lineBreak {date : String} (h : IsDate date) : ∀ c ∈ date.toList, Text.isLineBreak c = false := by
  intro c hc
  rcases h.chars c hc with hdigit | rfl
  · have hlow : 48 ≤ c.toNat ∧ c.toNat ≤ 57 := by
      simpa [Char.isDigit, UInt32.le_iff_toNat_le] using hdigit
    simp only [Text.isLineBreak, Bool.or_eq_false_iff, Bool.and_eq_false_iff, decide_eq_false_iff_not,
      beq_eq_false_iff_ne]
    omega
  · decide

namespace Script

/-- **The heading of a script fits into its box**, whatever the date. -/
theorem bannerText_fits {date : String} (h : IsDate date) :
    ∃ banner, bannerText ⟨date, "unknown"⟩ "just.sh" = .ok banner := by
  unfold bannerText bannerHeading editionLine
  refine Text.heading?_fits ?_
  have hlen : date.toList.length = 10 := by
    rw [String.length_toList]
    exact h.length
  -- with the date counted the rest of the heading is a fixed text
  simp only [String.toList_append, List.foldl_append]
  rw [Text.foldl_lineStep h.no_lineBreak (by decide +kernel), hlen]
  decide +kernel

end Script

/-- What holds of the values of a table and of a value put into it holds of the values then. -/
theorem Table.forall_values_put {α : Type} {P : α → Prop} {t : Table α} (h : ∀ v ∈ t.values, P v)
    (key : String) {value : α} (hvalue : P value) : ∀ v ∈ (t.put key value).values, P v := by
  obtain ⟨entries⟩ := t
  simp only [Table.values, Table.put] at h ⊢
  induction entries with
  | nil =>
    intro v hv
    rw [List.mem_singleton.1 hv]
    exact hvalue
  | cons e rest ih =>
    rw [List.map_cons, List.forall_mem_cons] at h
    by_cases hk : (key == e.1) = true
    · rw [Table.putIn, if_pos hk, List.map_cons, List.forall_mem_cons]
      exact ⟨hvalue, h.2⟩
    · rw [Table.putIn, if_neg hk, List.map_cons, List.forall_mem_cons]
      exact ⟨h.1, ih h.2⟩

theorem Recipe.Shaped.params {P : Expr → Prop} {r : Recipe} (h : r.Shaped P) :
    ∀ q ∈ r.params, q.base.Shaped P := by
  intro q hq
  rcases List.mem_append.1 hq with hq | hq
  · obtain ⟨p, hp, rfl⟩ := List.mem_map.1 hq
    exact h.parameters p hp
  · obtain ⟨v, hv, rfl⟩ := Option.map_eq_some_iff.1 (Option.mem_toList.1 hq)
    exact h.variadic v hv

namespace Program

/-- Items, variables and parameters of a program are formed. -/
structure Formed (p : Program) : Prop where
  items : ∀ i ∈ p.items, i.Shaped Expr.Formed
  values : ∀ e ∈ p.values.values, e.Formed
  parameters : ∀ qs ∈ p.parameters.values, ∀ q ∈ qs, q.base.Shaped Expr.Formed

variable {items : List Item}

/-- The variables have values of items. -/
theorem variablesOf_formed (h : ∀ i ∈ items, i.Shaped Expr.Formed) :
    ∀ e ∈ (variablesOf items).values, e.Formed := by
  refine List.foldlRecOn (motive := fun t : Table Expr => ∀ e ∈ t.values, e.Formed) items _
    (fun e he => absurd he List.not_mem_nil) fun t ht i hi => ?_
  have hshape := (h i hi).2
  cases hd : i.declaration with
  | assignment name value =>
    rw [hd] at hshape
    exact Table.forall_values_put ht name hshape.2
  | exported name value =>
    rw [hd] at hshape
    exact Table.forall_values_put ht name hshape.2
  | _ => exact ht

/-- The parameters by name are those of recipes. -/
theorem parametersOf_formed (h : ∀ i ∈ items, i.Shaped Expr.Formed) :
    ∀ qs ∈ (parametersOf items).1.values, ∀ q ∈ qs, q.base.Shaped Expr.Formed := by
  refine List.foldlRecOn (motive := fun t : Table (List Param) × List Warning =>
    ∀ qs ∈ t.1.values, ∀ q ∈ qs, q.base.Shaped Expr.Formed) items _
    (fun qs hqs => absurd hqs List.not_mem_nil) fun t ht i hi => ?_
  have hshape := (h i hi).2
  cases hd : i.declaration with
  | recipe r =>
    rw [hd] at hshape
    exact Table.forall_values_put ht r.name (Recipe.Shaped.params hshape)
  | _ => exact ht

/-- Aliases have the parameters of their targets. -/
theorem withAliases_formed {parameters : Table (List Param)}
    (h : ∀ qs ∈ parameters.values, ∀ q ∈ qs, q.base.Shaped Expr.Formed) :
    ∀ qs ∈ (withAliases parameters items).values, ∀ q ∈ qs, q.base.Shaped Expr.Formed := by
  refine List.foldlRecOn (motive := fun t : Table (List Param) =>
    ∀ qs ∈ t.values, ∀ q ∈ qs, q.base.Shaped Expr.Formed) items _ h fun t ht i _ => ?_
  cases hd : i.declaration with
  | «alias» name target =>
    cases hfind : t.find? target with
    | none => simpa only [hfind] using ht
    | some qs =>
      simp only [hfind]
      exact Table.forall_values_put ht name (ht qs (Table.mem_values_of_find? hfind))
  | _ => exact ht

/-- **The program of formed items is formed.** -/
theorem formed_of_ofItems {t : Names} {p : Program} (h : ∀ i ∈ items, i.Shaped Expr.Formed)
    (hp : (ofItems items).result t = .ok p) : p.Formed := by
  have hprogram := assembled_of_ofItems hp
  refine ⟨?_, ?_, ?_⟩
  · rw [hprogram.items]
    exact h
  · rw [hprogram.values]
    exact variablesOf_formed h
  · rw [hprogram.parameters]
    exact withAliases_formed (parametersOf_formed h)

end Program

namespace Shell

mutual

/-- A named expression has a word, whatever names are taken. -/
theorem evaluate_succeeds : ∀ {e : Expr}, e.Named → Succeeds (evaluate e)
  | .text s, _ => by rw [evaluate]; exact .pure _
  | .var name, _ => by rw [evaluate]; exact (Succeeds.cleanName _).map _
  | .sum left right, h => by
    rw [Expr.Named] at h
    rw [evaluate]
    exact (evaluate_succeeds h.1).bind fun _ => (evaluate_succeeds h.2).bind fun _ => .pure _
  | .path left right, h => by
    rw [Expr.Named] at h
    rw [evaluate]
    exact (evaluate_succeeds h.1).bind fun _ => (evaluate_succeeds h.2).bind fun _ => .pure _
  | .backtick command, _ => by rw [evaluate]; exact .pure _
  | .call name args, h => by
    rw [Expr.Named] at h
    rw [evaluate]
    exact (evaluateAll_succeeds (Expr.allNamed_iff.1 h.2)).bind fun _ => (Succeeds.cleanName name).bind fun _ =>
      .pure _
  | .bareCall name, _ => by rw [evaluate]; exact (Succeeds.cleanName name).bind fun _ => .pure _
  | .cond op left right yes no, _ => by rw [evaluate]; exact (Succeeds.cleanName _).map _
  | .looseCond _ _ _, h => by rw [Expr.Named] at h; exact h.elim
  | .stray _, h => by rw [Expr.Named] at h; exact h.elim

theorem evaluateAll_succeeds : ∀ {es : List Expr}, (∀ e ∈ es, e.Named) → Succeeds (evaluateAll es)
  | [], _ => by rw [evaluateAll]; exact .pure _
  | e :: es, h => by
    rw [List.forall_mem_cons] at h
    rw [evaluateAll]
    exact (evaluate_succeeds h.1).bind fun _ => (evaluateAll_succeeds h.2).bind fun _ => .pure _

end

end Shell

namespace Script

variable {p : Program} {r : Recipe}

section Bodies

theorem interpolate_succeeds {es : List Expr} (h : ∀ e ∈ es, Succeeds (evaluate e)) (first : Nat) :
    Succeeds (interpolate first es) := by
  induction es generalizing first with
  | nil => exact .pure []
  | cons e es ih =>
    rw [List.forall_mem_cons] at h
    exact h.1.bind fun w => (ih h.2 (first + 1)).bind fun more => .pure _

theorem exportsOf_succeeds (p : Program) (r : Recipe) : Succeeds (exportsOf p r) :=
  .mapM fun _ _ => (Succeeds.cleanName _).bind fun _ => (Succeeds.cleanName _).bind fun _ => .pure _

theorem argumentsOf_succeeds (p : Program) (r : Recipe) (withName : Bool) :
    Succeeds (argumentsOf p r withName) := by
  unfold argumentsOf
  split
  · exact (Succeeds.mapM fun q _ => .cleanName _).bind fun _ => .pure _
  · exact .pure _

/-- The expressions of a line are those of its fragments. -/
theorem interpolationsOf_formed {parts : List Fragment} (h : ∀ f ∈ parts, f.Shaped Expr.Formed) :
    ∀ e ∈ interpolationsOf parts, Succeeds (evaluate e) := by
  intro e he
  obtain ⟨f, hf, hfe⟩ := List.mem_filterMap.1 he
  have hshape := h f hf
  cases f with
  | text s => cases hfe
  | interpolation e' =>
    cases hfe
    exact evaluate_succeeds hshape.1

/-- The expressions of a body are those of its lines. -/
theorem interpolationsOf_bodyPieces (ls : List Line) :
    interpolationsOf (bodyPieces ls) = ls.flatMap fun l => interpolationsOf l.parts := by
  fun_induction bodyPieces ls with
  | case1 => rfl
  | case2 l => rw [List.flatMap_singleton]
  | case3 l rest _ ih =>
    rw [List.flatMap_cons, ← ih]
    exact List.filterMap_append

theorem commandLine_succeeds (attributes : List String) (first : Nat) {l : Line}
    (h : ∀ e ∈ interpolationsOf l.parts, Succeeds (evaluate e)) : Succeeds (commandLine p attributes r first l) :=
  (interpolate_succeeds h first).bind fun _ =>
    (exportsOf_succeeds p r).bind fun _ => (argumentsOf_succeeds p r true).bind fun _ => .pure _

theorem commandLines_succeeds (attributes : List String) (first : Nat) {ls : List Line}
    (h : ∀ l ∈ ls, isIgnored p l = false → ∀ e ∈ interpolationsOf l.parts, Succeeds (evaluate e)) :
    Succeeds (commandLines p attributes r first ls) := by
  induction ls generalizing first with
  | nil => exact .pure []
  | cons l ls ih =>
    rw [List.forall_mem_cons] at h
    rw [commandLines]
    split
    · exact ih first h.2
    · rename_i hkept
      have hline := h.1 (Bool.eq_false_iff.2 hkept)
      exact (commandLine_succeeds attributes first hline).bind fun c => (ih _ h.2).bind fun _ => .pure _

theorem bodyFile_succeeds (attributes : List String)
    (h : ∀ l ∈ r.body, ∀ e ∈ interpolationsOf l.parts, Succeeds (evaluate e)) :
    Succeeds (bodyFile p attributes r) := by
  have hexprs : ∀ e ∈ interpolationsOf (bodyPieces r.body), Succeeds (evaluate e) := by
    intro e he
    rw [interpolationsOf_bodyPieces] at he
    obtain ⟨l, hl, he⟩ := List.mem_flatMap.1 he
    exact h l hl e he
  exact (interpolate_succeeds hexprs 1).bind fun _ => (exportsOf_succeeds p r).bind fun _ =>
    (argumentsOf_succeeds p r false).bind fun _ => .pure _

theorem bodyOf_succeeds (attributes : List String) (h : ∀ l ∈ r.body, l.Shaped Expr.Formed) :
    Succeeds (bodyOf p attributes r) := by
  have hexprs : ∀ l ∈ r.body, ∀ e ∈ interpolationsOf l.parts, Succeeds (evaluate e) :=
    fun l hl => interpolationsOf_formed (h l hl).2
  unfold bodyOf
  split
  · exact (bodyFile_succeeds attributes hexprs).map _
  · exact (commandLines_succeeds attributes 1 fun l hl _ => hexprs l hl).map _

end Bodies

section Parameters

theorem evaluate?_succeeds {e? : Option Expr} (h : ∀ e ∈ e?, e.Formed) : Succeeds (evaluate? e?) := by
  cases e? with
  | none => exact .pure none
  | some e => exact (evaluate_succeeds (h e rfl).1).map _

/-- A default can be written as in the justfile, so a parameter has a label. -/
theorem ofParam_ok {q : Param} (h : q.base.Shaped Expr.Formed) : ∃ l, Label.ofParam q = .ok l := by
  unfold Label.ofParam
  cases hd : q.base.default with
  | none => exact ⟨_, rfl⟩
  | some e =>
    have hsource : e.source 0 = .ok (String.ofList e.writtenAlone) := by
      unfold Expr.source
      rw [Expr.sourceChars_zero (h.2 e hd).2]
      rfl
    simp only [hsource]
    exact ⟨_, rfl⟩

theorem leastOf_ok (h : r.Shaped Expr.Formed) : ∃ least, leastOf r = .ok least := by
  obtain ⟨labels, hlabels⟩ := exists_mapM_eq_ok fun q hq => ofParam_ok (h.params q hq)
  unfold leastOf
  split
  · exact ⟨none, rfl⟩
  · rw [hlabels]
    exact ⟨_, rfl⟩

theorem slotsOf_succeeds {qs : List Parameter} (h : ∀ q ∈ qs, q.Shaped Expr.Formed) (place : Nat) :
    Succeeds (slotsOf place qs) := by
  induction qs generalizing place with
  | nil => exact .pure []
  | cons q qs ih =>
    rw [List.forall_mem_cons] at h
    exact (Succeeds.cleanName _).bind fun _ => (evaluate?_succeeds h.1.2).bind fun _ =>
      (ih h.2 (place + 1)).bind fun _ => .pure _

theorem remainderOf_succeeds (h : r.Shaped Expr.Formed) : Succeeds (remainderOf r) := by
  unfold remainderOf
  cases hv : r.variadic with
  | none => exact .pure none
  | some v =>
    exact (Succeeds.cleanName _).bind fun _ => (evaluate?_succeeds (h.variadic v hv).2).bind fun _ => .pure _

theorem intakeOf_succeeds (h : r.Shaped Expr.Formed) : Succeeds (intakeOf r) := by
  unfold intakeOf
  split
  · exact .pure none
  · exact (Succeeds.ofExcept (leastOf_ok h)).bind fun _ => (slotsOf_succeeds h.parameters 1).bind fun _ =>
      (remainderOf_succeeds h).bind fun _ => .pure _

end Parameters

section Entries

theorem beforeRun_succeeds {d : Dependency} (h : d.Shaped Expr.Formed) : Succeeds (beforeRun r d) :=
  (evaluateAll_succeeds fun e he => (h.2 e he).1).bind fun _ => (Succeeds.cleanName _).bind fun _ =>
    (Succeeds.cleanName _).bind fun _ => (Succeeds.cleanName _).bind fun _ => .pure _

theorem afterRuns_succeeds {ds : List Dependency} (h : ∀ d ∈ ds, d.Shaped Expr.Formed) (seen : List String) :
    Succeeds (afterRuns seen ds) := by
  induction ds generalizing seen with
  | nil => exact .pure []
  | cons d ds ih =>
    rw [List.forall_mem_cons] at h
    refine (evaluateAll_succeeds fun e he => (h.1.2 e he).1).bind fun args => ?_
    split
    · exact ih h.2 seen
    · exact (Succeeds.cleanName _).bind fun _ => (Succeeds.cleanName _).bind fun _ =>
        (ih h.2 _).bind fun _ => .pure _

/-- A formed recipe has a function. -/
theorem recipeFunction_succeeds (p : Program) (attributes : List String) (h : r.Shaped Expr.Formed) :
    Succeeds (recipeFunction p attributes r) :=
  (bodyOf_succeeds attributes h.lines).bind fun _ => (Succeeds.cleanName _).bind fun _ =>
    (Succeeds.cleanName _).bind fun _ => (Succeeds.cleanName _).bind fun _ =>
    (intakeOf_succeeds h).bind fun _ =>
    (Succeeds.mapM fun d hd => beforeRun_succeeds (h.before d hd)).bind fun _ =>
    (afterRuns_succeeds h.after []).bind fun _ => .pure _

theorem itemEntries_succeeds (p : Program) {i : Item} (h : i.Shaped Expr.Formed) :
    Succeeds (itemEntries p i) := by
  have hshape := h.2
  unfold itemEntries
  cases hd : i.declaration with
  | recipe r =>
    rw [hd] at hshape
    exact (recipeFunction_succeeds p i.attributes hshape).bind fun _ => .pure _
  | «alias» name target =>
    exact (Succeeds.cleanName _).bind fun _ => (Succeeds.cleanName _).bind fun _ => .pure _
  | _ => exact .pure _

theorem dispatcherOf_succeeds (recipe : String) (functions : Table String) :
    Succeeds (dispatcherOf recipe functions) :=
  (Succeeds.mapM fun _ _ => (Succeeds.cleanName _).bind fun _ => .pure _).bind fun _ =>
    (Succeeds.cleanName _).bind fun _ => .pure _

theorem entriesOf_succeeds (hp : p.Formed) : Succeeds (entriesOf p) :=
  (Succeeds.mapM fun i hi => itemEntries_succeeds p (hp.items i hi)).bind fun _ =>
    (Succeeds.mapM fun e _ => dispatcherOf_succeeds e.1 e.2).bind fun _ => .pure _

/-- The parameters of a target have labels, and a target without parameters needs none. -/
theorem listedOf_ok (hp : p.Formed) (target : String) : ∃ l, listedOf p target = .ok l := by
  have hparams : ∀ q ∈ (p.parameters.find? target).getD [], ∃ l, Label.ofParam q = .ok l := by
    intro q hq
    cases hfind : p.parameters.find? target with
    | none =>
      rw [hfind] at hq
      cases hq
    | some qs =>
      rw [hfind] at hq
      exact ofParam_ok (hp.parameters qs (Table.mem_values_of_find? hfind) q hq)
  obtain ⟨labels, hlabels⟩ := exists_mapM_eq_ok hparams
  unfold listedOf
  rw [hlabels]
  exact ⟨_, rfl⟩

theorem defaultOf_succeeds (p : Program) : Succeeds (defaultOf p) := by
  unfold defaultOf
  cases p.recipes with
  | nil => exact .pure none
  | cons recipe rest => exact (Succeeds.cleanName _).bind fun _ => .pure _

end Entries

/-- **A formed program has a script** if the heading fits. -/
theorem ofProgram_succeeds {edition : Edition} {outfile : String} (justfile : String) (hp : p.Formed)
    (hbanner : ∃ banner, bannerText edition outfile = .ok banner) :
    Succeeds (ofProgram edition outfile justfile p) := by
  have hassignments : ∀ e ∈ p.values.entries, Succeeds (assignmentOf e.1 e.2) := by
    intro e he
    have hformed : e.2.Formed := hp.values e.2 (List.mem_map_of_mem he)
    exact (Succeeds.cleanName _).bind fun _ => (evaluate_succeeds hformed.1).bind fun _ => .pure _
  have hlisted : ∀ targets : List String, ∃ ls, targets.mapM (listedOf p) = .ok ls :=
    fun targets => exists_mapM_eq_ok fun target _ => listedOf_ok hp target
  have hvariables : ∀ names : List String, Succeeds (names.mapM variableOf) :=
    fun names => .mapM fun name _ => (Succeeds.cleanName _).bind fun _ => .pure _
  have hcases : Succeeds (p.targets.mapM (caseOf p)) :=
    .mapM fun target _ => (Succeeds.cleanName _).bind fun _ => .pure _
  unfold ofProgram
  refine (Succeeds.ofExcept hbanner).bind fun _ => (Succeeds.mapM hassignments).bind fun _ => ?_
  refine (entriesOf_succeeds hp).bind fun _ => (Succeeds.ofExcept (hlisted _)).bind fun _ => ?_
  refine (Succeeds.ofExcept (hlisted _)).bind fun _ => (hvariables _).bind fun _ => ?_
  exact (hvariables _).bind fun _ => hcases.bind fun _ => (defaultOf_succeeds p).bind fun _ => .pure _

end Script

end Justfile
