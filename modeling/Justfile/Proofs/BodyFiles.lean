import Justfile.Proofs.Comments
import Justfile.Proofs.Interpolations

/-!
# Bodies that are files

A body that begins with the name of an interpreter is written to a file. Its texts are gathered up to the next
interpolation, over the ends of lines. The leads of its lines are not written, since they are no part of the text.

* `filled_contentWords`: the words of the content say the text of the body.
* `linesText`: the text of lines with something before each of them. `linesText_eq_iff`: what stands before lines can be
  seen in their text.
* `file_content`: what is written to the file of a recipe, and when it is the text with the leads.
-/

namespace Justfile

open Shell Shell.Names Shell.Reader Parsing Parser

namespace Script

section Content

variable (env : String → String)

theorem safe_contentWords (parts : List Fragment) (first : Nat) (pending : Option String) :
    ∀ w ∈ contentWords first pending parts, w.Safe := by
  have hpending : ∀ w ∈ pending.toList.map Word.literal, w.Safe := by
    intro w hw
    obtain ⟨s, -, rfl⟩ := List.mem_map.1 hw
    simp only [Word.Safe]
  induction parts generalizing first pending with
  | nil => exact hpending
  | cons part parts ih =>
    cases part with
    | text s =>
      refine ih first _ fun w hw => ?_
      rw [List.mem_singleton.1 hw]
      simp only [Word.Safe]
    | interpolation e =>
      rw [contentWords, List.forall_mem_append, List.forall_mem_cons]
      refine ⟨hpending, ?_, ih (first + 1) none fun w hw => absurd hw List.not_mem_nil⟩
      rw [Word.Safe]
      exact isShellName_interpolationName first

/-- **The words of the content say the text**, whatever the values of the interpolations are. What is pending stands
before it. -/
theorem filled_contentWords (parts : List Fragment) (first : Nat) (pending : Option String) :
    filled env ((contentWords first pending parts).flatMap Word.pieces) =
      lettersOf (pending.getD "" ++ filledText parts (valuesFrom env first (interpolationsOf parts).length)) := by
  have hpending : ∀ pending : Option String,
      filled env ((pending.toList.map Word.literal).flatMap Word.pieces) = lettersOf (pending.getD "") := by
    intro pending
    cases pending with
    | none => rfl
    | some s =>
      rw [Option.toList_some, List.map_singleton, List.flatMap_singleton, Word.pieces]
      exact filled_lettersOf s
  induction parts generalizing first pending with
  | nil =>
    have hnone : filledText [] (valuesFrom env first (interpolationsOf []).length) = "" := rfl
    rw [contentWords, hpending, hnone, String.append_empty]
  | cons part parts ih =>
    cases part with
    | text s =>
      rw [contentWords, ih, filledText, ← String.append_assoc]
      rfl
    | interpolation e =>
      have hcount : (interpolationsOf (.interpolation e :: parts)).length =
          (interpolationsOf parts).length + 1 := rfl
      rw [contentWords, List.flatMap_append, filled_append, hpending, List.flatMap_cons, filled_append, ih,
        Word.pieces, filled_value, hcount, valuesFrom_succ, filledText, Option.getD_none, String.empty_append,
        ← lettersOf_append, ← lettersOf_append]

theorem contentWords_ne_nil (first : Nat) (s : String) (parts : List Fragment) :
    contentWords first (some s) parts ≠ [] := by
  induction parts generalizing s with
  | nil => exact List.cons_ne_nil _ _
  | cons part parts ih =>
    cases part with
    | text s' => exact ih _
    | interpolation e => exact List.cons_ne_nil _ _

end Content

/-- The text of lines with line feeds between them, where the interpolations have some values, in order. What `lead`
gives for a line stands before its text. -/
def linesText (lead : Line → String) : List Line → List String → String
  | [], _ => ""
  | [l], values => lead l ++ filledText l.parts values
  | l :: rest, values =>
    lead l ++ filledText l.parts values ++ "\n" ++ linesText lead rest (values.drop (interpolationsOf l.parts).length)

theorem filledText_append (parts more : List Fragment) (values : List String)
    (h : (interpolationsOf parts).length ≤ values.length) : filledText (parts ++ more) values =
      filledText parts values ++ filledText more (values.drop (interpolationsOf parts).length) := by
  induction parts generalizing values with
  | nil =>
    rw [List.nil_append, interpolationsOf, List.filterMap_nil, List.length_nil, List.drop_zero]
    exact (String.empty_append).symm
  | cons part parts ih =>
    cases part with
    | text s =>
      rw [List.cons_append, filledText, filledText, ih values h, String.append_assoc]
      rfl
    | interpolation e =>
      have hcount : (interpolationsOf (.interpolation e :: parts)).length =
          (interpolationsOf parts).length + 1 := rfl
      rw [hcount] at h
      cases values with
      | nil => cases h
      | cons value values =>
        rw [List.cons_append, filledText, filledText, ih values (Nat.le_of_succ_le_succ h), hcount,
          List.drop_succ_cons, String.append_assoc]

/-- The pieces of a body say the text of its lines without leads. -/
theorem filledText_bodyPieces (ls : List Line) (values : List String)
    (h : (interpolationsIn ls).length ≤ values.length) :
    filledText (bodyPieces ls) values = linesText (fun _ => "") ls values := by
  fun_induction bodyPieces ls generalizing values with
  | case1 => rfl
  | case2 l => exact (String.empty_append).symm
  | case3 l rest hrest ih =>
    have hcount : (interpolationsIn (l :: rest)).length =
        (interpolationsOf l.parts).length + (interpolationsIn rest).length := List.length_append
    rw [filledText_append _ _ _ (by omega), filledText, linesText, ih _ (by rw [List.length_drop]; omega),
      String.empty_append, String.append_assoc]
    exact hrest

/-- What stands before lines makes their text longer. -/
theorem length_linesText (lead : Line → String) (ls : List Line) (values : List String) :
    (linesText lead ls values).length =
      (linesText (fun _ => "") ls values).length + (ls.map fun l => (lead l).length).sum := by
  fun_induction linesText lead ls values with
  | case1 => rfl
  | case2 l values =>
    rw [linesText, String.length_append, String.length_append, String.length_empty, List.map_singleton,
      List.sum_singleton]
    omega
  | case3 l rest values hrest ih =>
    rw [linesText]
    · simp only [String.length_append, String.length_empty, List.map_cons, List.sum_cons, ih]
      omega
    · exact hrest

/-- **What stands before lines can be seen in their text.** -/
theorem linesText_eq_iff (lead : Line → String) (ls : List Line) (values : List String) :
    linesText (fun _ => "") ls values = linesText lead ls values ↔ ∀ l ∈ ls, lead l = "" := by
  constructor
  · intro h l hl
    have hlength := congrArg String.length h
    rw [length_linesText lead] at hlength
    have hle : (lead l).length ≤ (ls.map fun l => (lead l).length).sum :=
      List.le_sum_of_mem (List.mem_map.2 ⟨l, hl, rfl⟩)
    have hzero : (lead l).length = 0 := by omega
    exact String.length_eq_zero_iff.1 hzero
  · intro h
    fun_induction linesText lead ls values with
    | case1 => rfl
    | case2 l values => rw [linesText, h l List.mem_cons_self]
    | case3 l rest values hrest ih =>
      rw [List.forall_mem_cons] at h
      rw [linesText, h.1, ih h.2]
      exact hrest

section Files

variable {p : Program} {r : Recipe}

/-- The values of a file are those that its body interpolates, and its content is made of the body. -/
theorem bodyFile_writes (attributes : List String) :
    Takes (fun _ => True) (bodyFile p attributes r) fun u f =>
      List.Forall₂ (fun e i => (evaluate e).result u = .ok i.value) (interpolationsIn r.body) f.interpolations ∧
      f.interpolations.map (·.index) = List.range' 1 (interpolationsIn r.body).length ∧
      f.content = contentWords 1 none (bodyPieces r.body) := by
  have hpieces : interpolationsOf (bodyPieces r.body) = interpolationsIn r.body := interpolationsOf_bodyPieces r.body
  have hvalues := interpolate_takes (fun e (_ : e ∈ interpolationsIn r.body) => evaluate_steady e) 1
  unfold bodyFile
  simp only [hpieces]
  refine hvalues.bind fun interpolations => Takes.bind (exportsOf_steady p r) fun exports => ?_
  refine Takes.bind (argumentsOf_steady p r false) fun arguments => .pure fun u _ _ hvalues => ?_
  exact ⟨hvalues.1.imp fun e i h => congrArg Prod.fst h, hvalues.2, rfl⟩

/-- The content of a file is what is written to it. -/
theorem text_echoes (recipe : String) (f : BodyFile) : ∃ before,
    (before ++ "\n  echo " ++ joinText f.content ++ " > \"${TEMPFILE}\"").toList <+: (f.text recipe).toList := by
  have hmore (s t u : String) (h : s.toList <+: t.toList) : s.toList <+: (t ++ u).toList := by
    rw [String.toList_append]
    exact h.trans (List.prefix_append _ _)
  unfold BodyFile.text
  -- eight texts follow the command
  exact ⟨_, hmore _ _ _ <| hmore _ _ _ <| hmore _ _ _ <| hmore _ _ _ <| hmore _ _ _ <| hmore _ _ _ <| hmore _ _ _ <|
    hmore _ _ _ List.prefix_rfl⟩

/-- A body that begins with the name of an interpreter begins with a text. -/
theorem bodyPieces_of_isShebang (hr : r.isShebang = true) : ∃ s more, bodyPieces r.body = .text s :: more := by
  have hopening : ∃ s, r.opening? = some s := by
    unfold Recipe.isShebang at hr
    split at hr
    · exact ⟨_, ‹_›⟩
    · cases hr
  obtain ⟨s, hs⟩ := hopening
  unfold Recipe.opening? at hs
  split at hs
  · rename_i lead s' parts rest hbody
    cases hs
    rw [hbody]
    cases rest with
    | nil => exact ⟨s, parts, rfl⟩
    | cons l rest => exact ⟨s, _, rfl⟩
  · cases hs

/-- **The content of a file is one word**, and says the lines of its body without their leads. -/
theorem read_contentWords (hr : r.isShebang = true) : ∃ pieces,
    read (joinText (contentWords 1 none (bodyPieces r.body))) = some [.word pieces] ∧ ∀ env, filled env pieces =
      lettersOf (linesText (fun _ => "") r.body (valuesFrom env 1 (interpolationsIn r.body).length)) := by
  obtain ⟨s, more, hpieces⟩ := bodyPieces_of_isShebang hr
  have hne : contentWords 1 none (bodyPieces r.body) ≠ [] := by
    rw [hpieces]
    exact contentWords_ne_nil 1 _ more
  refine ⟨_, read_joinText hne (safe_contentWords _ 1 none), fun env => ?_⟩
  have hcount : (interpolationsIn r.body).length ≤ (valuesFrom env 1 (interpolationsIn r.body).length).length := by
    rw [valuesFrom, List.length_map, List.length_range']
  rw [filled_contentWords, interpolationsOf_bodyPieces, Option.getD_none, String.empty_append]
  exact congrArg lettersOf (filledText_bodyPieces r.body _ hcount)

end Files

end Script

theorem lettersOf_inj {s s' : String} : lettersOf s = lettersOf s' ↔ s = s' := by
  unfold lettersOf
  rw [List.map_inj_right fun c d h => (Piece.char.inj h)]
  exact String.toList_inj

section Leads

variable {ω : Type} [Listener ω]

/-- A lead is not empty. -/
theorem line_led (depth : Nat) : Yields (line depth : Parser ω Line) fun l => l.lead ≠ some "" := by
  have hword : ∀ s : String, s ≠ "" → Yields (word s : Parser ω String) fun lead => lead ≠ "" :=
    fun s hs => .map ((Yields.trivial _).mono fun _ _ => hs)
  have hlead : Yields (lineLead : Parser ω String) fun lead => lead ≠ "" :=
    .traced ((hword _ (by decide)).orElse ((hword _ (by decide)).orElse
      ((hword _ (by decide)).orElse (hword _ (by decide)))))
  unfold line
  refine .traced (hlead.optional.bind fun lead h => .after _ fun parts => .after _ fun _ => .pure ?_)
  intro hempty
  exact h "" hempty rfl

theorem recipe_led (depth : Nat) : Yields (recipe depth : Parser ω Recipe) fun r => ∀ l ∈ r.body, l.lead ≠ some "" := by
  have hbody : Yields (body depth : Parser ω (List Line)) fun ls => ∀ l ∈ ls, l.lead ≠ some "" := by
    unfold body
    exact .traced (.after _ fun _ => .many1 (.after _ fun _ => line_led depth))
  have hdraft : Yields (draft depth : Parser ω Recipe) fun r => ∀ l ∈ r.body, l.lead ≠ some "" := by
    unfold draft
    iterate 9 refine .after _ fun _ => ?_
    refine hbody.optional.bind fun ls h => .pure ?_
    cases ls with
    | none => exact fun l hl => absurd hl List.not_mem_nil
    | some ls => exact h ls rfl
  rw [recipe_eq]
  refine .traced (hdraft.bind fun r hr => ?_)
  change Yields (if _ then _ else _) _
  split
  · exact (Yields.reject r.name fun _ => False).bind fun _ hfalse => hfalse.elim
  · exact .after _ fun _ => .pure hr

/-- **The lines of a justfile have no empty leads.** -/
theorem led_of_parse {text : String} {items : List Item} (h : parse text = .ok items) {names : List String} {r : Recipe}
    (hr : ⟨names, .recipe r⟩ ∈ items) : ∀ l ∈ r.body, l.lead ≠ some "" := by
  obtain ⟨next, far, t', hitems⟩ := items_of_parse h
  have hitem (depth : Nat) : Yields (item depth : Parser Unit Item) fun i =>
      ∀ r, i.declaration = .recipe r → ∀ l ∈ r.body, l.lead ≠ some "" := by
    intro c t i next far t' h r hr
    obtain ⟨t₁, h⟩ := tracedBy_eq_done h
    obtain ⟨names, c₁, far₁, t₂, _, -, h⟩ := bind_eq_done h
    obtain ⟨d, c₂, _, t₃, _, hdeclaration, h⟩ := bind_eq_done h
    cases h
    cases hr
    obtain ⟨far', hrecipe⟩ := recipe_of_declaration hdeclaration
    exact recipe_led depth _ _ _ _ _ _ hrecipe
  exact (hitem _).many _ _ _ _ _ _ hitems _ hr r rfl

end Leads

/-- **What is written to the file of a recipe.** A recipe of a justfile that begins with the name of an interpreter
gets a file. The numbered variables from one on have the values of the expressions that the body interpolates, in order.
The content is one word, that the shell reads as the lines without their leads, with line feeds between them and the
values in the place of the variables. That is the text with the leads just if no line has one. -/
theorem file_content {text : String} {items : List Item} (hparse : parse text = .ok items) {names : List String}
    {r : Recipe} (hitem : ⟨names, .recipe r⟩ ∈ items) (hr : r.isShebang = true) (p : Program) (attributes : List String)
    {t : Names} (ht : Settled t) :
    ∃ f, (Script.bodyOf p attributes r).result t = .ok (.file f) ∧
      (∀ u, Settled u → Within ((Script.bodyOf p attributes r).table t) u → List.Forall₂
        (fun e i => (evaluate e).result u = .ok i.value) (Script.interpolationsIn r.body) f.interpolations) ∧
      f.interpolations.map (·.index) = List.range' 1 (Script.interpolationsIn r.body).length ∧
      (∃ before, (before ++ "\n  echo " ++ joinText f.content ++ " > \"${TEMPFILE}\"").toList <+:
        (f.text r.name).toList) ∧
      ∃ pieces, read (joinText f.content) = some [.word pieces] ∧
        ∀ (env : String → String) values, values = f.interpolations.map (fun i => env (Script.interpolationName i.index)) →
          filled env pieces = lettersOf (Script.linesText (fun _ => "") r.body values) ∧
          (filled env pieces = lettersOf (Script.linesText (fun l => l.lead.getD "") r.body values) ↔
            ∀ l ∈ r.body, l.lead = none) := by
  have hbody : Script.bodyOf p attributes r = Script.Body.file <$> Script.bodyFile p attributes r := by
    rw [Script.bodyOf, hr]
    rfl
  have hshaped : ∀ l ∈ r.body, l.Shaped Expr.Formed :=
    (parse_shaped grammatical_formed hparse _ hitem).2.lines
  obtain ⟨b, hb⟩ := Script.bodyOf_succeeds (p := p) attributes hshaped t
  rw [hbody] at hb ⊢
  have hfile := hb
  rw [map_eq_pure_bind] at hfile
  obtain ⟨f, hf, hpure, -⟩ := Naming.bind_eq_ok hfile
  cases hpure
  have hwrites := Script.bodyFile_writes (p := p) (r := r) attributes
  obtain ⟨-, hnumbers, hcontent⟩ := hwrites.gives t _ f (hwrites.settled t ht) (.refl _) hf
  obtain ⟨pieces, hread, hfilled⟩ := Script.read_contentWords hr
  refine ⟨f, hb, fun u hu hw => ?_, hnumbers, Script.text_echoes r.name f, pieces, ?_, ?_⟩
  · rw [Naming.table_map] at hw
    exact (hwrites.gives t u f hu hw hf).1
  · rw [hcontent]
    exact hread
  · intro env values hvalues
    have hfrom : values = Script.valuesFrom env 1 (Script.interpolationsIn r.body).length := by
      rw [hvalues, Script.valuesFrom, ← hnumbers, List.map_map]
      rfl
    have hled := led_of_parse hparse hitem
    rw [hfrom, hfilled]
    refine ⟨rfl, ?_⟩
    rw [lettersOf_inj, Script.linesText_eq_iff]
    -- a lead that is there is not empty
    refine forall₂_congr fun l hl => ?_
    cases hlead : l.lead with
    | none => simp
    | some lead => simpa [hlead] using hled l hl

/-- A recipe whose file misses what stands before its second line. -/
def unledText : String :=
  "r:\n  #!/bin/sh\n  -x \x7b\x7b a \x7d\x7d\n"

def unledRecipe : Recipe where
  echo := true
  name := "r"
  parameters := []
  variadic := none
  before := []
  after := []
  body := [⟨none, [.text "#!/bin/sh"]⟩, ⟨some "-", [.text "x ", .interpolation (.var "a")]⟩]

/-- A program that leaves out comments. -/
def Script.uncommented : Program where
  items := []
  settings := ⟨[("ignore-comments", .flag true)]⟩
  values := .empty
  exports := []
  helpers := .empty
  privates := []
  recipes := []
  platforms := .empty
  docs := .empty
  parameters := .empty
  aliases := .empty
  uniqueRecipes := []
  targets := []
  sortedTargets := []
  warnings := []

theorem file_content_unled : parse unledText = .ok [⟨[], .recipe unledRecipe⟩] ∧ unledRecipe.isShebang = true ∧
    ∃ f pieces, (Script.bodyOf Script.uncommented [] unledRecipe).result .empty = .ok (.file f) ∧
      read (joinText f.content) = some [.word pieces] ∧
      filled (fun _ => "1") pieces = lettersOf "#!/bin/sh\nx 1" ∧
      filled (fun _ => "1") pieces ≠ lettersOf "#!/bin/sh\n-x 1" := by
  have hparse : parse unledText = .ok [⟨[], .recipe unledRecipe⟩] := by decide +kernel
  have hr : unledRecipe.isShebang = true := by decide +kernel
  obtain ⟨f, hf, -, hnumbers, -, pieces, hread, hfilled⟩ :=
    file_content hparse List.mem_cons_self hr Script.uncommented [] settled_empty
  refine ⟨hparse, hr, f, pieces, hf, hread, ?_⟩
  have hcount : f.interpolations.length = 1 := by
    have hlength := congrArg List.length hnumbers
    rw [List.length_map] at hlength
    exact hlength
  obtain ⟨i, hi⟩ := List.length_eq_one_iff.1 hcount
  obtain ⟨hunled, hiff⟩ := hfilled (fun _ => "1") ["1"] (by rw [hi]; rfl)
  have htext : Script.linesText (fun _ => "") unledRecipe.body ["1"] = "#!/bin/sh\nx 1" := by decide +kernel
  have hledText : Script.linesText (fun l => l.lead.getD "") unledRecipe.body ["1"] = "#!/bin/sh\n-x 1" := by
    decide +kernel
  rw [htext] at hunled
  rw [hledText] at hiff
  refine ⟨hunled, fun hled => ?_⟩
  have hnone := hiff.1 hled _ (List.mem_cons_of_mem _ List.mem_cons_self)
  cases hnone

end Justfile
