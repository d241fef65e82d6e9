import Justfile.Proofs.Trails

/-!
# Blank lines between the lines of a body

A line of blanks is put between two lines of a recipe's body. Whether the body goes on after it depends only on the
blanks, on the indentation, and on how the line before ends.

* An empty line after line ends is one more of them (`LineFilled.reads_empty`).
* Blanks after the indentation are a line of their own (`LineFilled.reads_blanks`).
* All other blanks end the body (`LineFilled.items_begin`): also those of just the indentation, and an empty line after
  a comment that is the end of a line. Without carriage returns there is no such comment (`exists_between`).

`Between` says where the line is put in the text, and `blank_line_between` that the items stay, but for at most one line
of blanks, just in the first two cases.
-/

namespace Justfile.Parsing

open Justfile.Parsing.Parser

section Filled

/-- Blanks `ws` and line ends `nl` are put into the end of a line, after `b` and a line feed and before `v`. -/
structure LineFilled {depth : Nat} {text : List Char} {before after : List Item} {names : List String} {r : Recipe}
    {above below : List Line} {upper lower : Line} (tr : Trail depth text before names r above upper lower below after)
    (g : Gap) (a b v ws nl : List Char) : Prop where
  text_eq : text = a ++ '\n' :: g.below
  plain : '\\' ∉ a
  stop_eq : tr.lineStop.rest = b ++ '\n' :: g.below
  filling_eq : g.filling = ws ++ nl
  below_eq : g.below = v ++ tr.next.rest
  blanks : ∀ d ∈ ws, isSpace d = true
  lineEnds : LineEnds nl
  ne_nil : nl ≠ []
  place : v = [] ∨ LineEnds (b ++ ['\n'])

variable {depth : Nat} {text : List Char} {before after : List Item} {names : List String} {r : Recipe}
  {above below : List Line} {upper lower : Line} {tr : Trail depth text before names r above upper lower below after}
  {g : Gap} {a b v ws nl : List Char}

namespace LineFilled

variable (h : LineFilled tr g a b v ws nl)

include h

theorem split : LineEnds (b ++ ['\n']) ∧ LineEnds v ∨
    v = [] ∧ ¬LineEnds (b ++ ['\n']) ∧ ∃ d c₁ s, Goes comment tr.lineStop d c₁ ∧ Goes newline c₁ s tr.next := by
  have hstop : tr.lineStop.rest = (b ++ ['\n']) ++ (v ++ tr.next.rest) := by
    rw [h.stop_eq, h.below_eq, List.append_assoc]
    rfl
  exact (tr.ends_split hstop (h.place.imp_right fun hb => ⟨hb, by simp⟩)).2

theorem below_lineEnds : LineEnds v := by
  rcases h.split with ⟨-, hv⟩ | ⟨rfl, -⟩
  · exact hv
  · exact .nil

theorem next_suffix : tr.next.rest <:+ g.below := by
  rw [h.below_eq]
  exact List.suffix_append _ _

/-- The end of the line stands before the gap. -/
theorem twin : g.Twin tr.lineStop.rest (b ++ '\n' :: (g.filling ++ g.below)) := by
  have hsuffix : tr.lineStop.rest <:+ a ++ '\n' :: g.below := by
    rw [← h.text_eq]
    exact tr.lineStop_suffix
  have hover : g.Over tr.lineStop.rest := by
    rw [h.stop_eq]
    exact Gap.over_append b
  obtain ⟨b', hb', heq⟩ := Gap.eq_append_of_over hsuffix hover
  obtain rfl : b' = b := List.append_cancel_right (heq.symm.trans h.stop_eq)
  rw [heq]
  exact .before fun hmem => h.plain (hb'.subset hmem)

/-- After line ends, an empty line is one more of them. -/
theorem lineEnd_empty (hb : LineEnds (b ++ ['\n'])) (hws : ws = []) :
    ∃ d, Reads (lineEnd : Parser Unit Datum) (b ++ '\n' :: (g.filling ++ g.below)) d tr.next.rest := by
  rcases h.split with ⟨-, hv⟩ | ⟨-, hno, -⟩
  · have hends : LineEnds ((b ++ ['\n']) ++ (nl ++ v)) := hb.append (h.lineEnds.append hv)
    obtain ⟨d, hread⟩ := hends.lineEnd_reads (ω := Unit) (by simp) (tr.isIndent.not_atLineEnd tr.next_starts)
    refine ⟨d, ?_⟩
    rw [h.filling_eq, h.below_eq, hws]
    simpa using hread
  · exact absurd hb hno

/-- Otherwise the end of the line ends before the blanks. -/
theorem lineEnd_blanks (hor : LineEnds (b ++ ['\n']) → ws ≠ []) :
    ∃ d, Reads (lineEnd : Parser Unit Datum) (b ++ '\n' :: (g.filling ++ g.below)) d
      (ws ++ ((nl ++ v) ++ tr.next.rest)) := by
  rcases h.split with ⟨hb, -⟩ | ⟨rfl, -, d, c₁, s, hcomment, hnewline⟩
  · have hrest : ¬AtLineEnd (ws ++ ((nl ++ v) ++ tr.next.rest)) :=
      IsIndent.not_atLineEnd ⟨hor hb, h.blanks⟩ (List.prefix_append _ _)
    obtain ⟨d, hread⟩ := hb.lineEnd_reads (ω := Unit) (by simp) hrest
    refine ⟨d, ?_⟩
    rw [h.filling_eq, h.below_eq]
    simpa using hread
  · -- the comment is read again, and one line end after it
    have hbelow : g.below = tr.next.rest := h.below_eq
    have hafter : ∃ x, c₁.rest = x ++ '\n' :: g.below ∧
        ∃ s', Reads (newline : Parser Unit String) (x ++ '\n' :: (g.filling ++ g.below)) s' (g.filling ++ g.below) := by
      rw [hbelow]
      rcases newline_goes hnewline with hc₁ | hc₁
      · exact ⟨[], hc₁, _, newline_reads _⟩
      · exact ⟨['\r'], hc₁, _, newline_reads_return _⟩
    obtain ⟨x, hx, s', hread'⟩ := hafter
    obtain ⟨y, htwin, hread⟩ := hcomment.reads comment_carries h.twin fun _ => hx ▸ Gap.over_append x
    obtain ⟨x', -, hx', rfl⟩ := htwin.eq_of_over (hx ▸ Gap.over_append x)
    obtain rfl : x' = x := List.append_cancel_right (hx'.symm.trans hx)
    have hline : Reads (lineEnd : Parser Unit Datum) (b ++ '\n' :: (g.filling ++ g.below)) _ (g.filling ++ g.below) :=
      .traced (.orElse_left (hread.bind (hread'.bind (.pure _ _))))
    have hleft : ws ++ ((nl ++ []) ++ tr.next.rest) = g.filling ++ g.below := by
      rw [h.filling_eq, hbelow, List.append_nil, List.append_assoc]
    rw [hleft]
    exact ⟨_, hline⟩

/-- **An empty line after line ends changes nothing.** -/
theorem reads_empty (hb : LineEnds (b ++ ['\n'])) (hws : ws = []) :
    Reads (file depth : Parser Unit (List Item)) (a ++ '\n' :: (g.filling ++ g.below))
      (before ++ ⟨names, .recipe { r with body := above ++ upper :: lower :: below }⟩ :: after) [] := by
  obtain ⟨d, hend⟩ := h.lineEnd_empty hb hws
  exact tr.file_reads h.plain h.text_eq h.stop_eq hend h.next_suffix .nil

/-- **Blanks beyond the indentation are one more line.** -/
theorem reads_blanks {w : List Char} (hws : ws = (String.join tr.steps).toList ++ w) (hw : w ≠ []) :
    Reads (file depth : Parser Unit (List Item)) (a ++ '\n' :: (g.filling ++ g.below)) (before ++
      ⟨names, .recipe { r with body := above ++ upper :: ⟨none, [.text (String.ofList w)]⟩ :: lower :: below }⟩ ::
        after) [] := by
  have hne : ws ≠ [] := by
    rw [hws]
    exact List.append_ne_nil_of_right_ne_nil _ hw
  obtain ⟨d, hend⟩ := h.lineEnd_blanks fun _ => hne
  have hblank : ∀ d ∈ w, isSpace d = true := fun d hd => h.blanks d (hws ▸ List.mem_append_right _ hd)
  have hline : Reads (bodyLine depth (String.join tr.steps) : Parser Unit Line) (ws ++ ((nl ++ v) ++ tr.next.rest))
      ⟨none, [.text (String.ofList w)]⟩ tr.next.rest := by
    rw [hws]
    exact (h.lineEnds.append h.below_lineEnds).bodyLine_reads_blanks depth (by simp [h.ne_nil]) hblank
      (tr.isIndent.not_atLineEnd tr.next_starts) _ hw
  have hextra := ReadsAll.cons hline (hline.shorter ((repetitions Unit).bodyLine depth _)) .nil
  exact tr.file_reads h.plain h.text_eq h.stop_eq hend h.next_suffix hextra

/-- **Other blanks end the body.** -/
theorem items_begin (hb : LineEnds (b ++ ['\n']) → ws ≠ [])
    (hws : ∀ w, ws = (String.join tr.steps).toList ++ w → w = []) {items : List Item} {c : Cursor}
    (hfile : Goes (file depth) ⟨a ++ '\n' :: (g.filling ++ g.below), 0⟩ items c) :
    before ++ [⟨names, .recipe { r with body := above ++ [upper] }⟩] <+: items := by
  obtain ⟨d, hend⟩ := h.lineEnd_blanks hb
  have hnone : Refuses (bodyLine depth (String.join tr.steps) : Parser Unit Line) (ws ++ ((nl ++ v) ++ tr.next.rest)) :=
    (h.lineEnds.append h.below_lineEnds).bodyLine_refuses_blanks depth (by simp [h.ne_nil]) h.blanks
      tr.isIndent hws
  exact tr.items_begin h.plain h.text_eq h.stop_eq hend hnone hfile

end LineFilled

end Filled

section Places

/-- `front` and `back` are a text before and after a place between two lines of a body: the line with the number `k` of
the recipe that is the item with the number `j`, and the next one. The lines start with `indent`, and `ends` is the end
of the first one. Where it has several line ends, the place may be after each of them. -/
structure Between (text : String) (j k : Nat) (indent ends front back : List Char) : Prop where
  split : text.toList = front ++ back
  place : ∃ u v next, ends = u ++ v ∧ (v = [] ∨ LineEnds u ∧ u ≠ []) ∧
    lineEnd? text j k = some (indent, ends ++ next, next) ∧
    prepare text.toList = front.dropWhile Text.isBlank ++ (v ++ next)

variable {text : String} {before after : List Item} {names : List String} {r : Recipe} {above below : List Line}
  {upper lower : Line}

theorem goes_of_parse {items : List Item} (h : parse text = .ok items) :
    ∃ c, Goes (file ((prepare text.toList).length + 1)) ⟨prepare text.toList, 0⟩ items c := by
  obtain ⟨next, far, hrun⟩ := parse_eq_ok h
  exact ⟨next, far, hrun⟩

/-- The body goes on after the blanks `ws` on a line of their own: there are none of them, and the line before ends with
line ends, or they are more than the indentation. -/
def Transparent (indent ends ws : List Char) : Prop :=
  LineEnds ends ∧ ws = [] ∨ ∃ w, w ≠ [] ∧ ws = indent ++ w

/-- The lines that are added to a body that goes on after the blanks `ws`. -/
def addedLines (indent ws : List Char) : List Line :=
  if ws = [] then [] else [⟨none, [.text (String.ofList (ws.drop indent.length))]⟩]

/-- A line of blanks, as it is read. -/
def IsBlankLine (l : Line) : Prop :=
  ∃ w : List Char, (∀ d ∈ w, isSpace d = true) ∧ l = ⟨none, [.text (String.ofList w)]⟩

theorem addedLines_blank (indent : List Char) {ws : List Char} (hws : ∀ d ∈ ws, isSpace d = true) :
    (addedLines indent ws).length ≤ 1 ∧ ∀ l ∈ addedLines indent ws, IsBlankLine l := by
  unfold addedLines
  split
  · simp
  · refine ⟨Nat.le_refl 1, fun l hl => ?_⟩
    rw [List.mem_singleton.1 hl]
    exact ⟨_, fun d hd => hws d (List.mem_of_mem_drop hd), rfl⟩

variable (h : parse text = .ok (before ++ ⟨names, .recipe r⟩ :: after))
  (hbody : r.body = above ++ upper :: lower :: below)

include h hbody

/-- **A justfile that is read has a trail to each line**, with any depth beyond the length of the text. -/
theorem exists_trail {depth : Nat} (hdepth : (prepare text.toList).length < depth) :
    ∃ tr : Trail depth (prepare text.toList) before names r above upper lower below after,
      lineEnd? text before.length above.length =
        some ((String.join tr.steps).toList, tr.lineStop.rest, tr.next.rest) := by
  obtain ⟨c, far, hrun⟩ := goes_of_parse h
  have hg := bounded_alike (ω := Unit) (F := Faulty Unit ((prepare text.toList).length + 1)) (Nat.le_refl _) hdepth
  obtain ⟨heq, -⟩ := file_alike hg ⟨prepare text.toList, 0⟩ () (Nat.lt_succ_self _)
  rw [heq] at hrun
  obtain ⟨tr⟩ := trail_of_file ⟨far, hrun⟩ rfl hbody
  refine ⟨tr, ?_⟩
  obtain ⟨far', hpast⟩ := tr.pastLine_goes
  obtain ⟨heq', -⟩ := pastLine_alike hg before.length above.length ⟨prepare text.toList, 0⟩ () (Nat.lt_succ_self _)
  unfold lineEnd?
  rw [heq', hpast]

variable (hplain : '\\' ∉ text.toList)

include hplain

/-- **There is a place between any two lines**, and without carriage returns the first one ends with line ends. -/
theorem exists_between :
    ∃ indent ends, IsIndent indent ∧ ('\r' ∉ text.toList → LineEnds ends) ∧
      ∃ front back, Between text before.length above.length indent ends front back := by
  obtain ⟨tr, htr⟩ := exists_trail h hbody (Nat.lt_succ_self _)
  have hlineEnd : Advances 1 (lineEnd : Parser Unit Datum) := (repetitions Unit).lineEnd
  obtain ⟨d, hend⟩ := tr.lineEnd_goes
  obtain ⟨ends, hstop⟩ := hend.suffix hlineEnd
  obtain ⟨y, hy⟩ := tr.lineStop_suffix
  have hprep : prepare text.toList = (y ++ ends) ++ tr.next.rest := by
    rw [List.append_assoc, hstop]
    exact hy.symm
  obtain ⟨⟨b, hb⟩, -⟩ := tr.ends_split (u := ends) (v := []) hstop.symm (.inl rfl)
  obtain ⟨q, -, hq⟩ := tr.below_ends (prepare_plain hplain) (v := []) ⟨_, hprep.symm⟩
  have hne : y ++ ends ≠ [] := by simp [hb]
  obtain ⟨front, back, hsplit, hfront⟩ := exists_split hplain hne (hprep.trans (congrArg _ hq))
  refine ⟨(String.join tr.steps).toList, ends, tr.isIndent, fun hreturn => ?_, front, back, hsplit, ?_⟩
  · have hno : '\r' ∉ prepare text.toList := fun hmem => absurd (mem_of_mem_prepare hplain hmem) (by simp [hreturn])
    obtain ⟨u, hu, heq⟩ := tr.ends_plain hno
    rwa [List.append_cancel_right (hstop.trans heq)]
  · refine ⟨ends, [], tr.next.rest, (List.append_nil _).symm, .inl rfl, ?_, ?_⟩
    · rw [htr, hstop]
    · rw [hfront]
      exact hprep

variable {indent ends front back ws nl : List Char}
  (hplace : Between text before.length above.length indent ends front back)

include hplace

/-- **What is put at a place between two lines is put at the same place into the prepared text.** -/
theorem Between.prepared :
    ∃ a b v next, lineEnd? text before.length above.length = some (indent, b ++ '\n' :: (v ++ next), next) ∧
      (v = [] ∨ LineEnds (b ++ ['\n'])) ∧ (LineEnds ends ↔ LineEnds (b ++ ['\n'])) ∧ '\n' ∈ v ++ next ∧
      prepare text.toList = a ++ '\n' :: (v ++ next) ∧
      ∀ filling, '\\' ∉ filling → prepare (front ++ filling ++ back) = a ++ '\n' :: (filling ++ (v ++ next)) := by
  obtain ⟨u, v, next, rfl, hvplace, hline, hprep⟩ := hplace.place
  obtain ⟨tr, htr⟩ := exists_trail h hbody (Nat.lt_succ_self _)
  have heq := htr.symm.trans hline
  simp only [Option.some.injEq, Prod.mk.injEq] at heq
  obtain ⟨-, hstop, hnext⟩ := heq
  rw [List.append_assoc] at hstop
  obtain ⟨⟨b, rfl⟩, hsplit⟩ := tr.ends_split (v := v) (hnext ▸ hstop) hvplace
  have hiff : LineEnds (b ++ ['\n'] ++ v) ↔ LineEnds (b ++ ['\n']) := by
    rcases hsplit with ⟨hb, hv⟩ | ⟨rfl, -⟩
    · exact ⟨fun _ => hb, fun _ => hb.append hv⟩
    · rw [List.append_nil]
  -- the place is on the trail
  obtain ⟨y, hy⟩ := tr.lineStop_suffix
  have hfront : front.dropWhile Text.isBlank = (y ++ b) ++ ['\n'] := by
    have heq : (y ++ (b ++ ['\n'])) ++ (v ++ next) = front.dropWhile Text.isBlank ++ (v ++ next) := by
      rw [List.append_assoc, ← hstop]
      exact hy.trans hprep
    rw [← List.append_cancel_right heq, List.append_assoc]
  have hends : prepare text.toList = Text.strip text.toList ++ ['\n', '\n'] := prepare_plain hplain
  obtain ⟨q, hq, hqnext⟩ := tr.below_ends hends (v := v) ⟨_, (hnext ▸ hprep).symm⟩
  rw [hnext] at hqnext
  refine ⟨y ++ b, b, v, next, ?_, hvplace.imp_right And.left, hiff, ?_, ?_, fun filling hfilling => ?_⟩
  · rw [hline]
    simp
  · rw [hqnext]
    simp
  · rw [hprep, hfront]
    simp
  · rw [hplace.split] at hplain hprep
    rw [hqnext] at hprep
    rw [prepare_fill hplain hfilling hprep (by rw [hfront]; simp) hq, hfront, hqnext]
    simp

variable (hws : ∀ d ∈ ws, isSpace d = true) (hnl : LineEnds nl) (hne : nl ≠ [])

include hws hnl hne

/-- The way through the text is known up to the place, and after it. -/
theorem Between.exists_filled :
    ∃ (tr : Trail ((prepare (front ++ (ws ++ nl) ++ back)).length + 1) (prepare text.toList) before names r above
        upper lower below after) (g : Gap) (a b v : List Char), LineFilled tr g a b v ws nl ∧
      (String.join tr.steps).toList = indent ∧
      (LineEnds ends ↔ LineEnds (b ++ ['\n'])) ∧
      prepare (front ++ (ws ++ nl) ++ back) = a ++ '\n' :: (g.filling ++ g.below) := by
  obtain ⟨a, b, v, next, hline, hvplace, hiff, hfeed, hprep, hfill⟩ := hplace.prepared h hbody hplain
  have hblank : ∀ d ∈ ws ++ nl, Text.isBlank d = true := by
    intro d hd
    rcases List.mem_append.1 hd with hd | hd
    · exact isBlank_of_isSpace (hws d hd)
    · exact hnl.blank d hd
  have hbackslash : '\\' ∉ ws ++ nl := fun hmem => absurd (hblank _ hmem) (by decide)
  have hfilled := hfill (ws ++ nl) hbackslash
  have hlong : (prepare text.toList).length < (prepare (front ++ (ws ++ nl) ++ back)).length + 1 := by
    rw [hfilled, hprep]
    simp only [List.length_append, List.length_cons]
    omega
  have hnone : '\\' ∉ a ++ '\n' :: (v ++ next) := by
    rw [← hprep]
    intro hmem
    exact absurd (mem_of_mem_prepare hplain hmem) (by simp [hplain])
  obtain ⟨tr, htr⟩ := exists_trail h hbody hlong
  have heq := htr.symm.trans hline
  simp only [Option.some.injEq, Prod.mk.injEq] at heq
  obtain ⟨hindent, hstop, hnext⟩ := heq
  have hgap : '\\' ∉ v ++ next := fun hmem => hnone (List.mem_append_right _ (List.mem_cons_of_mem _ hmem))
  refine ⟨tr, ⟨ws ++ nl, v ++ next, hblank, hfeed, hgap⟩, a, b, v, ?_, hindent, hiff, hfilled⟩
  exact {
    text_eq := hprep
    plain := fun hmem => hnone (List.mem_append_left _ hmem)
    stop_eq := hstop
    filling_eq := rfl
    below_eq := by rw [hnext]
    blanks := hws
    lineEnds := hnl
    ne_nil := hne
    place := hvplace }

/-- **Where the body goes on, at most a line of blanks is added.** -/
theorem Between.parse_of_transparent (ht : Transparent indent ends ws) :
    parse (String.ofList (front ++ (ws ++ nl) ++ back)) = .ok (before ++
      ⟨names, .recipe { r with body := above ++ upper :: (addedLines indent ws ++ lower :: below) }⟩ :: after) := by
  obtain ⟨tr, g, a, b, v, hfilled, hindent, hiff, hprep⟩ := hplace.exists_filled h hbody hplain hws hnl hne
  have hprepared : prepare (String.ofList (front ++ (ws ++ nl) ++ back)).toList =
      prepare (front ++ (ws ++ nl) ++ back) := by
    rw [String.toList_ofList]
  refine parse_of_reads hprepared (?_ : Reads _ _ _ [])
  rcases ht with ⟨hends, rfl⟩ | ⟨w, hw, rfl⟩
  · have hread := hfilled.reads_empty (hiff.1 hends) rfl
    rw [← hprep] at hread
    exact hread
  · have hread := hfilled.reads_blanks (by rw [hindent]) hw
    rw [← hprep] at hread
    simpa [addedLines, hw] using hread

/-- **Otherwise the body ends.** Whatever the rest of the text is read as, the recipe has the lines up to the place. -/
theorem Between.begins_of_parse (ht : ¬Transparent indent ends ws) {items' : List Item}
    (h' : parse (String.ofList (front ++ (ws ++ nl) ++ back)) = .ok items') :
    before ++ [⟨names, .recipe { r with body := above ++ [upper] }⟩] <+: items' := by
  obtain ⟨tr, g, a, b, v, hfilled, hindent, hiff, hprep⟩ := hplace.exists_filled h hbody hplain hws hnl hne
  obtain ⟨c, hfile⟩ := goes_of_parse h'
  rw [String.toList_ofList] at hfile
  have hempty : LineEnds (b ++ ['\n']) → ws ≠ [] := fun hb hnil => ht (.inl ⟨hiff.2 hb, hnil⟩)
  have hshort : ∀ w, ws = (String.join tr.steps).toList ++ w → w = [] := by
    intro w hw
    by_contra hne
    exact ht (.inr ⟨w, hne, hindent ▸ hw⟩)
  refine hfilled.items_begin hempty hshort (c := c) ?_
  rw [← hprep]
  exact hfile

end Places

end Justfile.Parsing

namespace Justfile

open Justfile.Parsing

/-- **A line of blanks between two lines of a body.** In a text without backslashes there is a place for it between any
two lines of a recipe. The items stay the same, but for at most one line of blanks at that place, exactly if the line is
empty and the one before it ends with line ends, or if it has more blanks than the indentation. Then just the blanks
after the indentation are added. Otherwise the body ends at the place: in whatever is read, the recipe has only the
lines up to it. -/
theorem blank_line_between (text : String) (before after : List Item) (names : List String) (r : Recipe)
    (above below : List Line) (upper lower : Line) (hplain : '\\' ∉ text.toList)
    (h : parse text = .ok (before ++ ⟨names, .recipe r⟩ :: after)) (hbody : r.body = above ++ upper :: lower :: below) :
    ∃ indent ends, IsIndent indent ∧ ('\r' ∉ text.toList → LineEnds ends) ∧
      (∃ front back, Between text before.length above.length indent ends front back) ∧
      ∀ front back ws nl, Between text before.length above.length indent ends front back →
        (∀ d ∈ ws, isSpace d = true) → LineEnds nl → nl ≠ [] →
        ((∃ extra : List Line, extra.length ≤ 1 ∧ (∀ l ∈ extra, IsBlankLine l) ∧
          parse (String.ofList (front ++ (ws ++ nl) ++ back)) = .ok (before ++
            ⟨names, .recipe { r with body := above ++ upper :: (extra ++ lower :: below) }⟩ :: after)) ↔
          Transparent indent ends ws) ∧
        (Transparent indent ends ws → parse (String.ofList (front ++ (ws ++ nl) ++ back)) = .ok (before ++
          ⟨names, .recipe { r with body := above ++ upper :: (addedLines indent ws ++ lower :: below) }⟩ :: after)) ∧
        (¬Transparent indent ends ws → ∀ items', parse (String.ofList (front ++ (ws ++ nl) ++ back)) = .ok items' →
          before ++ [⟨names, .recipe { r with body := above ++ [upper] }⟩] <+: items') := by
  obtain ⟨indent, ends, hindent, hreturn, hexists⟩ := exists_between h hbody hplain
  refine ⟨indent, ends, hindent, hreturn, hexists, fun front back ws nl hplace hws hnl hne => ?_⟩
  have hkept := hplace.parse_of_transparent h hbody hplain hws hnl hne
  have hcut : ¬Transparent indent ends ws → ∀ items', parse (String.ofList (front ++ (ws ++ nl) ++ back)) = .ok items' →
      before ++ [⟨names, .recipe { r with body := above ++ [upper] }⟩] <+: items' :=
    fun ht items' h' => hplace.begins_of_parse h hbody hplain hws hnl hne ht h'
  refine ⟨⟨?_, fun ht => ?_⟩, hkept, hcut⟩
  · rintro ⟨extra, -, -, hparse⟩
    by_contra ht
    -- the recipe would have lost its lower line
    have hbegin := hcut ht _ hparse
    rw [List.prefix_append_right_inj, List.cons_prefix_cons] at hbegin
    simp at hbegin
  · obtain ⟨hone, hblank⟩ := addedLines_blank indent hws
    exact ⟨_, hone, hblank, hkept ht⟩

/-- A variable, a recipe with three lines and one without lines. -/
def threeLines (body : List Line) : List Item :=
  [⟨[], .assignment "x" (.text "y")⟩, ⟨[], .recipe ⟨true, "r", [], none, [], [], body⟩⟩,
    ⟨[], .recipe ⟨true, "s", [], none, [], [], []⟩⟩]

/-- Before the last line of this recipe an empty line changes nothing, three blanks add a line with the third of them,
and two blanks, which are just the indentation, end the recipe. -/
theorem blank_line_between_three :
    '\\' ∉ "\nx := 'y'\nr:\n  a\n    b\n\n  c\ns:\n".toList ∧
      parse "\nx := 'y'\nr:\n  a\n    b\n\n  c\ns:\n" =
        .ok (threeLines [⟨none, [.text "a"]⟩, ⟨none, [.text "  b"]⟩, ⟨none, [.text "c"]⟩]) ∧
      parse "\nx := 'y'\nr:\n  a\n    b\n\n\n  c\ns:\n" =
        .ok (threeLines [⟨none, [.text "a"]⟩, ⟨none, [.text "  b"]⟩, ⟨none, [.text "c"]⟩]) ∧
      parse "\nx := 'y'\nr:\n  a\n    b\n   \n\n  c\ns:\n" =
        .ok (threeLines [⟨none, [.text "a"]⟩, ⟨none, [.text "  b"]⟩, ⟨none, [.text " "]⟩, ⟨none, [.text "c"]⟩]) ∧
      ∀ items, parse "\nx := 'y'\nr:\n  a\n    b\n  \n\n  c\ns:\n" = .ok items →
        (threeLines [⟨none, [.text "a"]⟩, ⟨none, [.text "  b"]⟩]).take 2 <+: items := by
  have hplain : '\\' ∉ "\nx := 'y'\nr:\n  a\n    b\n\n  c\ns:\n".toList := by decide
  have hparse : parse "\nx := 'y'\nr:\n  a\n    b\n\n  c\ns:\n" =
      .ok (threeLines [⟨none, [.text "a"]⟩, ⟨none, [.text "  b"]⟩, ⟨none, [.text "c"]⟩]) := by decide +kernel
  have hline : lineEnd? "\nx := 'y'\nr:\n  a\n    b\n\n  c\ns:\n" 1 1 =
      some ("  ".toList, "\n\n".toList ++ "  c\ns:\n\n".toList, "  c\ns:\n\n".toList) := by decide +kernel
  have hplace : Between "\nx := 'y'\nr:\n  a\n    b\n\n  c\ns:\n" 1 1 "  ".toList "\n\n".toList
      "\nx := 'y'\nr:\n  a\n    b\n".toList "\n  c\ns:\n".toList :=
    ⟨by decide +kernel, ['\n'], ['\n'], _, rfl, .inr ⟨LineEnds.nil.feed, List.cons_ne_nil _ _⟩, hline,
      by decide +kernel⟩
  obtain ⟨indent, ends, -, -, ⟨front, back, hfound⟩, hall⟩ :=
    blank_line_between _ [_] [_] [] _ [_] [] _ _ hplain hparse rfl
  obtain ⟨u, v, next, -, -, hnext, -⟩ := hfound.place
  have heq := hline.symm.trans hnext
  simp only [Option.some.injEq, Prod.mk.injEq] at heq
  obtain ⟨rfl, hends, rfl⟩ := heq
  obtain rfl := List.append_cancel_right hends
  have hfeed : LineEnds ['\n'] := LineEnds.nil.feed
  have hends : LineEnds "\n\n".toList := LineEnds.nil.feed.feed
  obtain ⟨-, hempty, -⟩ := hall _ _ [] ['\n'] hplace (by simp) hfeed (by decide)
  obtain ⟨-, hlong, -⟩ := hall _ _ [' ', ' ', ' '] ['\n'] hplace (by simp [isSpace]) hfeed (by decide)
  obtain ⟨-, -, hshort⟩ := hall _ _ [' ', ' '] ['\n'] hplace (by simp [isSpace]) hfeed (by decide)
  refine ⟨hplain, hparse, hempty (.inl ⟨hends, rfl⟩), hlong (.inr ⟨[' '], by decide, rfl⟩), fun items hitems => ?_⟩
  refine hshort ?_ items hitems
  rintro (⟨-, hnil⟩ | ⟨w, hw, heq⟩)
  · cases hnil
  · have hnil : "  ".toList ++ [] = "  ".toList ++ w := heq
    exact hw (List.append_cancel_left hnil).symm

end Justfile
