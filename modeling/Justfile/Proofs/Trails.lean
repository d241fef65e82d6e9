import Justfile.Proofs.Blanks

/-!
# The way through a justfile, to the end of a line

* `Trail`: the places that the grammar passes on its way through a justfile, up to the end of a line of a body, and from
  the next line to the end of the text. Every parse of a body with two lines has one (`trail_of_file`).
* `lineEnd?`: where the end of that line stands, as a computation. `Trail.pastLine_goes`: it is the trail's.
* `Trail.file_reads`: after blanks are put behind the line, all is read again if the next line is read again.
* `Trail.items_begin`: if no line is read behind the blanks, the body ends with the line before them.
-/

namespace Justfile.Parsing

open Justfile.Parsing.Parser

section Place

/-- So many runs of a parser. -/
def times {ω α : Type} (p : Parser ω α) : Nat → Parser ω (List α)
  | 0 => return []
  | n + 1 => do
    let a ← p
    let as ← times p n
    return a :: as

/-- The text that is left. -/
def remaining {ω : Type} : Parser ω (List Char) where
  run c t := (.done c.rest c 0, t)

/-- Reads `j` items, the heading of a recipe and `k` lines of its body, and the next line with its end. Gives the
indentation of the body and what is left before the end of that line. -/
def pastLine {ω : Type} [Listener ω] (depth j k : Nat) : Parser ω (String × List Char) := do
  let _ ← times (item depth) j
  let _ ← optional (spread attributes)
  let _ ← heading depth
  let steps ← peek (many1 indentation)
  let _ ← times (bodyLine depth (String.join steps)) k
  let _ ← word (String.join steps)
  let _ ← lineContent depth
  let ending ← remaining
  let _ ← lineEnd
  return (String.join steps, ending)

/-- The line with the number `k` of the recipe that is the item with the number `j`: the indentation of the body, and
what is left of the prepared text before and after the end of the line. -/
def lineEnd? (text : String) (j k : Nat) : Option (List Char × List Char × List Char) :=
  match (pastLine ((prepare text.toList).length + 1) j k).run ⟨prepare text.toList, 0⟩ () with
  | (.done (indent, ending) next _, _) => some (indent.toList, ending, next.rest)
  | _ => none

/-- The places that the grammar passes when it reads a justfile with a recipe of at least two lines. The end of the line
`upper` is from `lineStop` to `next`, where the line `lower` starts. -/
structure Trail (depth : Nat) (text : List Char) (before : List Item) (names : List String) (r : Recipe)
    (above : List Line) (upper lower : Line) (below : List Line) (after : List Item) where
  start : Cursor
  named : Cursor
  headed : Cursor
  lineStart : Cursor
  lineText : Cursor
  lineStop : Cursor
  next : Cursor
  bodyEnd : Cursor
  itemEnd : Cursor
  itemsEnd : Cursor
  fileEnd : Cursor
  found : Option (List String)
  head : Recipe
  steps : List String
  items_before : Runs (item depth) ⟨text, 0⟩ before start
  attributes_goes : Goes (optional (spread attributes)) start found named
  names_eq : found.getD [] = names
  heading_goes : Goes (heading depth) named head headed
  recipe_eq : r = { head with body := above ++ upper :: lower :: below }
  indent_goes : ∃ c, Goes (many1 indentation) headed steps c
  lines_above : Runs (bodyLine depth (String.join steps)) headed above lineStart
  indent_read : Goes (word (String.join steps)) lineStart (String.join steps) lineText
  upper_goes : Goes (lineContent depth) lineText upper lineStop
  lineEnd_goes : ∃ d, Goes lineEnd lineStop d next
  lines_below : Runs (bodyLine depth (String.join steps)) next (lower :: below) bodyEnd
  body_ends : Fails (bodyLine depth (String.join steps)) bodyEnd
  check : ∀ failure, r.check ≠ .error failure
  newlines_go : ∃ ss, Goes (many newline) bodyEnd ss itemEnd
  items_after : Runs (item depth) itemEnd after itemsEnd
  items_end : Fails (item depth) itemsEnd
  lineEnds_go : ∃ ds, Goes (many lineEnd) itemsEnd ds fileEnd
  ended : fileEnd.rest = []

variable {depth : Nat} {text : List Char} {before after : List Item} {names : List String} {r : Recipe}
  {above below : List Line} {upper lower : Line}

theorem recipe_goes {c c' : Cursor} (h : Goes (declaration depth) c (.recipe r) c') : Goes (recipe depth) c r c' := by
  obtain ⟨far, h⟩ := h
  exact recipe_of_declaration h

/-- A recipe is a draft that passes its check, with line ends after it. -/
theorem recipe_parts {c c' : Cursor} (h : Goes (recipe depth) c r c') :
    ∃ c₁, Goes (draft depth) c r c₁ ∧ (∀ failure, r.check ≠ .error failure) ∧ ∃ ss, Goes (many newline) c₁ ss c' := by
  rw [recipe_eq] at h
  obtain ⟨r', c₁, hdraft, h⟩ := h.of_traced.parts
  cases hcheck : r'.check with
  | error failure =>
    simp only [hcheck] at h
    obtain ⟨_, _, ⟨far, hreject⟩, -⟩ := h.parts
    cases hreject
  | ok u =>
    simp only [hcheck] at h
    obtain ⟨ss, c₂, hnewlines, h⟩ := h.parts
    obtain ⟨rfl, rfl⟩ := h.of_pure
    refine ⟨c₁, hdraft, fun failure hfailure => ?_, ss, hnewlines⟩
    rw [hcheck] at hfailure
    cases hfailure

/-- A draft is a heading and a body, or only a heading. -/
theorem draft_parts {c c' : Cursor} (h : Goes (draft depth) c r c') :
    ∃ head c₁ lines, Goes (heading depth) c head c₁ ∧ Goes (optional (body depth)) c₁ lines c' ∧
      r = { head with body := lines.getD [] } := by
  rw [draft_eq] at h
  obtain ⟨head, c₁, hhead, h⟩ := h.parts
  obtain ⟨lines, c₂, hlines, h⟩ := h.parts
  obtain ⟨rfl, rfl⟩ := h.of_pure
  exact ⟨head, c₁, lines, hhead, hlines, rfl⟩

theorem optional_goes {α : Type} {p : Parser Unit α} {a : α} {c c' : Cursor} (h : Goes (optional p) c (some a) c') :
    Goes p c a c' := by
  obtain ⟨far, h⟩ := h
  rcases optional_eq_done h with ⟨b, hb, h⟩ | ⟨hb, -, -⟩
  · cases hb
    exact ⟨far, h⟩
  · cases hb

/-- A body is lines with one indentation, as many as there are. -/
theorem body_parts {c c' : Cursor} {lines : List Line} (h : Goes (body depth) c lines c') :
    ∃ steps, (∃ c₁, Goes (many1 indentation) c steps c₁) ∧ Runs (bodyLine depth (String.join steps)) c lines c' ∧
      Fails (bodyLine depth (String.join steps)) c' := by
  obtain ⟨steps, c₁, hpeek, hlines⟩ := h.of_traced.parts
  obtain ⟨rfl, hsteps⟩ := hpeek.of_peek
  obtain ⟨hruns, hend⟩ := Runs.of_many1 ((repetitions Unit).bodyLine depth _) hlines
  exact ⟨steps, hsteps, hruns, hend⟩

/-- A line of a body is its indentation, its text and its end. -/
theorem bodyLine_parts {indent : String} {c c' : Cursor} {l : Line} (h : Goes (bodyLine depth indent) c l c') :
    ∃ c₁ c₂, Goes (word indent) c indent c₁ ∧ Goes (lineContent depth) c₁ l c₂ ∧ ∃ d, Goes lineEnd c₂ d c' := by
  obtain ⟨w, c₁, hword, h⟩ := h.parts
  rw [line_eq] at h
  obtain ⟨l', c₂, hcontent, h⟩ := h.of_traced.parts
  obtain ⟨d, c₃, hend, h⟩ := h.parts
  obtain ⟨rfl, rfl⟩ := h.of_pure
  obtain ⟨_, _, _, hpure⟩ := hword.parts
  obtain ⟨rfl, -⟩ := hpure.of_pure
  exact ⟨c₁, c₂, hword, hcontent, d, hend⟩

theorem trail_of_file {items : List Item} {c : Cursor} (h : Goes (file depth) ⟨text, 0⟩ items c)
    (hitems : items = before ++ ⟨names, .recipe r⟩ :: after) (hbody : r.body = above ++ upper :: lower :: below) :
    Nonempty (Trail depth text before names r above upper lower below after) := by
  subst hitems
  obtain ⟨_, itemsEnd, hmany, h⟩ := h.parts
  obtain ⟨ds, fileEnd, hblank, h⟩ := h.parts
  obtain ⟨_, c₁, heof, h⟩ := h.parts
  obtain ⟨rfl, rfl⟩ := h.of_pure
  obtain ⟨hruns, hitemsEnd⟩ := Runs.of_many ((repetitions Unit).item depth) hmany
  obtain ⟨start, hbefore, hruns⟩ := hruns.split
  cases hruns with
  | @cons _ itemEnd _ _ _ hitem hafter =>
    obtain ⟨found, named, hfound, hitem⟩ := hitem.of_traced.parts
    obtain ⟨d, c₂, hdeclaration, hitem⟩ := hitem.parts
    obtain ⟨heq, rfl⟩ := hitem.of_pure
    cases heq
    obtain ⟨bodyEnd, hdraft, hcheck, hnewlines⟩ := recipe_parts (recipe_goes hdeclaration)
    obtain ⟨head, headed, lines, hhead, hlines, hr⟩ := draft_parts hdraft
    have hsome : lines = some (above ++ upper :: lower :: below) := by
      rw [hr] at hbody
      cases lines with
      | none => simp at hbody
      | some lines => exact congrArg some hbody
    subst hsome
    obtain ⟨steps, hsteps, hruns, hbodyEnd⟩ := body_parts (optional_goes hlines)
    obtain ⟨lineStart, habove, hruns⟩ := hruns.split
    cases hruns with
    | @cons _ next _ _ _ hupper hbelow =>
      obtain ⟨lineText, lineStop, hword, hcontent, hend⟩ := bodyLine_parts hupper
      have heof' : fileEnd.rest = [] := by
        obtain ⟨far, hrun⟩ := heof.of_traced
        simp only [eof] at hrun
        split at hrun
        · assumption
        · cases hrun
      exact ⟨{
        start, named, headed, lineStart, lineText, lineStop, next, bodyEnd, itemEnd, itemsEnd, fileEnd
        found, head, steps
        items_before := hbefore
        attributes_goes := hfound
        names_eq := rfl
        heading_goes := hhead
        recipe_eq := hr
        indent_goes := hsteps
        lines_above := habove
        indent_read := hword
        upper_goes := hcontent
        lineEnd_goes := hend
        lines_below := hbelow
        body_ends := hbodyEnd
        check := hcheck
        newlines_go := hnewlines
        items_after := hafter
        items_end := hitemsEnd
        lineEnds_go := ⟨ds, hblank⟩
        ended := heof' }⟩

theorem times_goes {α : Type} {p : Parser Unit α} {as : List α} {c c' : Cursor} (h : Runs p c as c') :
    Goes (times p as.length) c as c' := by
  induction h with
  | nil => exact .pure [] _
  | cons hone _ ih => exact hone.bind (ih.bind (.pure _ _))

theorem Goes.peek {α : Type} {p : Parser Unit α} {a : α} {c c' : Cursor} (h : Goes p c a c') : Goes (peek p) c a c := by
  obtain ⟨far, h⟩ := h
  refine ⟨0, ?_⟩
  simp only [Parser.peek, h]

section Depth

variable {ω : Type} {F : Cursor → String → Prop} {n : Nat}

theorem times_alike {α : Type} {k : Nat} {p q : Parser ω α} (h : Alike F n k p q) (j : Nat) :
    Alike F n 0 (times p j) (times q j) := by
  induction j with
  | zero => exact .pure []
  | succ j ih => exact .bind h.weaken fun _ => .bind ih fun _ => .pure _

/-- A depth beyond the length of the text plays no part. -/
theorem pastLine_alike [Listener ω] {depth' : Nat}
    (hg : ∀ r, Alike (Faulty ω depth) n r.least (bounded depth r : Parser ω r.Value) (bounded depth' r)) (j k : Nat) :
    Alike (Faulty ω depth) n 0 (pastLine depth j k : Parser ω (String × List Char)) (pastLine depth' j k) := by
  have hremaining : Alike (Faulty ω depth) n 0 (remaining : Parser ω (List Char)) remaining :=
    .self fun c _ => Ahead.refl c
  refine .bind (times_alike (item_alike hg) j) fun _ => ?_
  refine .bind (.optional (.spread (.tracedBy (.map attributeRow_alike.many _)))) fun _ => ?_
  refine .bind (heading_alike hg).weaken fun _ => .bind (.peek (.many1 indentation_alike)) fun _ => ?_
  refine .bind (times_alike (bodyLine_alike hg _) k) fun _ => .bind (.weaken (.wordLength _)) fun _ => ?_
  refine .bind (lineContent_alike hg).weaken fun _ => .bind hremaining fun _ => ?_
  exact .bind lineEnd_alike.weaken fun _ => .pure _

end Depth

variable (tr : Trail depth text before names r above upper lower below after)

theorem Trail.isIndent : IsIndent (String.join tr.steps).toList := by
  obtain ⟨c, far, hrun⟩ := tr.indent_goes
  exact indent_yields _ _ _ _ _ _ hrun

/-- The next line starts with the indentation. -/
theorem Trail.next_starts : (String.join tr.steps).toList <+: tr.next.rest := by
  cases tr.lines_below with
  | cons hlower _ =>
    obtain ⟨c₁, c₂, hword, -⟩ := bodyLine_parts hlower
    by_contra hno
    exact hword.not_refuses (.word (after?_eq_none hno))

/-- Each place of the trail is in what is left at the one before. -/
theorem Trail.suffixes : tr.lineStop.rest <:+ tr.lineText.rest ∧ tr.lineText.rest <:+ tr.lineStart.rest ∧
    tr.lineStart.rest <:+ tr.headed.rest ∧ tr.headed.rest <:+ tr.named.rest ∧ tr.named.rest <:+ tr.start.rest ∧
      tr.start.rest <:+ text := by
  have hg : ∀ n r, Alike (fun _ _ => False) n r.least (bounded depth r : Parser Unit r.Value) (bounded depth r) :=
    bounded_forward depth
  have hcontent : Advances 1 (lineContent depth : Parser Unit Line) := .of_alike fun n => lineContent_alike (hg n)
  have hword : Advances 0 (word (String.join tr.steps) : Parser Unit String) :=
    .of_alike (F := fun _ _ => False) fun _ => .weaken (.wordLength _)
  have hheading : Advances 1 (heading depth : Parser Unit Recipe) := .of_alike fun n => heading_alike (hg n)
  have hattributes : Advances 0 (optional (spread attributes) : Parser Unit (Option (List String))) :=
    .of_alike (F := fun _ _ => False) fun _ => .optional (.spread (.tracedBy (.map attributeRow_alike.many _)))
  exact ⟨tr.upper_goes.suffix hcontent, tr.indent_read.suffix hword,
    tr.lines_above.suffix ((repetitions Unit).bodyLine depth _), tr.heading_goes.suffix hheading,
    tr.attributes_goes.suffix hattributes, tr.items_before.suffix ((repetitions Unit).item depth)⟩

theorem Trail.lineStop_suffix : tr.lineStop.rest <:+ text := by
  obtain ⟨h₁, h₂, h₃, h₄, h₅, h₆⟩ := tr.suffixes
  exact h₁.trans (h₂.trans (h₃.trans (h₄.trans (h₅.trans h₆))))

/-- The trail passes the end of the line. -/
theorem Trail.pastLine_goes :
    Goes (pastLine depth before.length above.length) ⟨text, 0⟩ (String.join tr.steps, tr.lineStop.rest) tr.next := by
  obtain ⟨c, hindent⟩ := tr.indent_goes
  obtain ⟨d, hend⟩ := tr.lineEnd_goes
  have hremaining : Goes remaining tr.lineStop tr.lineStop.rest tr.lineStop := ⟨0, rfl⟩
  refine (times_goes tr.items_before).bind (tr.attributes_goes.bind (tr.heading_goes.bind (hindent.peek.bind ?_)))
  refine (times_goes tr.lines_above).bind (tr.indent_read.bind (tr.upper_goes.bind (hremaining.bind ?_)))
  exact hend.bind (.pure _ _)

/-- **Without carriage returns a line of a body ends with line ends**, and not with a comment. -/
theorem Trail.ends_plain (h : '\r' ∉ text) : ∃ u, LineEnds u ∧ tr.lineStop.rest = u ++ tr.next.rest := by
  obtain ⟨d, hend⟩ := tr.lineEnd_goes
  rcases lineEnd_parts hend with ⟨u, hu, -, heq⟩ | ⟨d, c₁, hcomment, s, hnewline⟩
  · exact ⟨u, hu, heq⟩
  -- the text of the line is refused at the comment, so the comment has a carriage return
  refine absurd (tr.lineStop_suffix.subset ?_) h
  obtain ⟨lead, c₂, -, hparts⟩ := tr.upper_goes.parts
  obtain ⟨parts, c₃, hparts, hpure⟩ := hparts.parts
  obtain ⟨-, rfl⟩ := hpure.of_pure
  obtain ⟨-, far, hfails⟩ := Runs.of_many1 ((repetitions Unit).piece depth) hparts
  obtain ⟨_, _, _, -, hfails⟩ := orElse_eq_failed hfails
  obtain ⟨_, _, far₁, -, hfails⟩ := orElse_eq_failed hfails
  have hfails : (untilEnd (satisfy fun c => c != '\r' && c != '\n') (textEnd depth) 1 : Parser Unit (List Char)).run
      tr.lineStop () = (.failed far₁, ()) := by
    rcases bind_eq_failed hfails with hfails | ⟨_, _, _, _, _, -, hpure⟩
    · exact hfails
    · cases hpure
  have hforward : Advances 1 (comment : Parser Unit Declaration) :=
    .of_alike (F := fun _ _ => False) fun _ => comment_alike
  have hline : '\n' ∈ tr.lineStop.rest := by
    refine (hcomment.suffix hforward).subset ?_
    rcases newline_goes hnewline with heq | heq <;> rw [heq] <;> simp
  refine return_of_text_failed depth _ 0 [] tr.lineStop far₁ (Nat.lt_succ_self _) hline (fun _ z hz => ?_) hfails
  refine hcomment.not_refuses ?_
  rw [hz]
  exact comment_refuses (avoids_cons rfl z)

/-- The end of the line is split where the blanks are put. Either both parts are line ends, or the blanks come after a
comment with one line end. -/
theorem Trail.ends_split {u v : List Char} (hstop : tr.lineStop.rest = u ++ (v ++ tr.next.rest))
    (hplace : v = [] ∨ LineEnds u ∧ u ≠ []) : (∃ b, u = b ++ ['\n']) ∧ (LineEnds u ∧ LineEnds v ∨
      v = [] ∧ ¬LineEnds u ∧ ∃ d c₁ s, Goes comment tr.lineStop d c₁ ∧ Goes newline c₁ s tr.next) := by
  obtain ⟨d, hend⟩ := tr.lineEnd_goes
  rcases lineEnd_parts hend with ⟨ends, hends, hne, heq⟩ | ⟨d, c₁, hcomment, s, hnewline⟩
  · have huv : ends = u ++ v := by
      rw [hstop, ← List.append_assoc] at heq
      exact (List.append_cancel_right heq).symm
    rcases hplace with rfl | ⟨hu, hune⟩
    · rw [List.append_nil] at huv
      rw [← huv]
      exact ⟨hends.ends hne, .inl ⟨hends, .nil⟩⟩
    · exact ⟨hu.ends hune, .inl ⟨hu, hu.right (huv ▸ hends)⟩⟩
  · have hnot : ¬(LineEnds u ∧ u ≠ []) := by
      rintro ⟨hu, hune⟩
      refine hcomment.not_refuses ?_
      rw [hstop]
      exact hu.comment_refuses hune
    obtain rfl : v = [] := hplace.resolve_right hnot
    rw [List.nil_append] at hstop
    have hforward : Advances 1 (comment : Parser Unit Declaration) :=
      .of_alike (F := fun _ _ => False) fun _ => comment_alike
    obtain ⟨y, hy⟩ := hcomment.suffix hforward
    have hb : ∃ b, u = b ++ ['\n'] := by
      rw [hstop] at hy
      rcases newline_goes hnewline with hc₁ | hc₁
      · have heq : (y ++ ['\n']) ++ tr.next.rest = u ++ tr.next.rest := by
          rw [← hy, hc₁, List.append_assoc]
          rfl
        exact ⟨y, (List.append_cancel_right heq).symm⟩
      · have heq : ((y ++ ['\r']) ++ ['\n']) ++ tr.next.rest = u ++ tr.next.rest := by
          rw [← hy, hc₁, List.append_assoc, List.append_assoc]
          rfl
        exact ⟨y ++ ['\r'], (List.append_cancel_right heq).symm⟩
    refine ⟨hb, .inr ⟨rfl, fun hu => hnot ⟨hu, ?_⟩, d, c₁, s, hcomment, hnewline⟩⟩
    obtain ⟨b, rfl⟩ := hb
    simp

/-- The next line is not at the end of the text. -/
theorem Trail.below_ends {init v : List Char} (htext : text = init ++ ['\n', '\n']) (hv : v ++ tr.next.rest <:+ text) :
    ∃ q, q ≠ [] ∧ v ++ tr.next.rest = q ++ ['\n', '\n'] := by
  obtain ⟨rest, hrest⟩ := tr.next_starts
  obtain ⟨d, indent, hindent⟩ := List.exists_cons_of_ne_nil tr.isIndent.1
  have hd : isSpace d = true := tr.isIndent.2 d (hindent ▸ List.mem_cons_self)
  have hmem : d ∈ v ++ tr.next.rest := by
    rw [← hrest, hindent]
    simp
  have hends : ['\n', '\n'] <:+ text := by
    rw [htext]
    exact List.suffix_append _ _
  rcases Nat.lt_or_ge 2 (v ++ tr.next.rest).length with hlong | hshort
  · obtain ⟨q, hq⟩ := List.suffix_of_suffix_length_le hends hv (Nat.le_of_lt hlong)
    refine ⟨q, ?_, hq.symm⟩
    rintro rfl
    rw [← hq] at hlong
    exact absurd hlong (by decide)
  · -- a blank of the indentation is no line feed
    have hfeed := (List.suffix_of_suffix_length_le hv hends hshort).subset hmem
    rw [show d = '\n' by simpa using hfeed] at hd
    cases hd

end Place

section Filled

variable {depth : Nat} {text : List Char} {before after : List Item} {names : List String} {r : Recipe}
  {above below : List Line} {upper lower : Line}

theorem Reads.shorter {α : Type} {p : Parser Unit α} (hp : Advances 1 p) {y y' : List Char} {a : α}
    (h : Reads p y a y') : y'.length < y.length := by
  obtain ⟨next, far, t', hrun⟩ := h 0 ()
  exact (hp _ _ _ _ _ _ hrun).apart

/-- **The text with the blanks is read like the text without them, up to the end of the line.** What its end and the
lines after it are, depends on the blanks. -/
theorem Trail.item_reads (tr : Trail depth text before names r above upper lower below after) {g : Gap}
    {a b : List Char} (ha : '\\' ∉ a) (htext : text = a ++ '\n' :: g.below)
    (hstop : tr.lineStop.rest = b ++ '\n' :: g.below) {d : Datum} {ss : List String} {more : List Line}
    {R R₁ R₂ : List Char} (hend : Reads (lineEnd : Parser Unit Datum) (b ++ '\n' :: (g.filling ++ g.below)) d R)
    (hmore : Repeats (bodyLine depth (String.join tr.steps) : Parser Unit Line) R more R₁)
    (hnewlines : Reads (many newline : Parser Unit (List String)) R₁ ss R₂) :
    ∃ y, ReadsAll (item depth : Parser Unit Item) (a ++ '\n' :: (g.filling ++ g.below)) before y ∧
      Reads (item depth : Parser Unit Item) y ⟨names, .recipe { r with body := above ++ upper :: more }⟩ R₂ := by
  have hindent := tr.isIndent
  have hlines : Advances 1 (bodyLine depth (String.join tr.steps) : Parser Unit Line) :=
    (repetitions Unit).bodyLine depth _
  have hcontent : Carries g False False True (lineContent depth : Parser Unit Line) (lineContent depth) :=
    lineContent_carries depth
  have hword : Carries g False False True (word (String.join tr.steps) : Parser Unit String)
      (word (String.join tr.steps)) := word_carries hindent.line
  have hheading : Carries g False False True (heading depth : Parser Unit Recipe) (heading depth) :=
    heading_carries depth
  have hattributes : Carries g False False True (optional (spread attributes) : Parser Unit (Option (List String)))
      (optional (spread attributes)) := attributes_carries
  -- all places up to the end of the line are before the gap
  have hover : g.Over tr.lineStop.rest := by
    rw [hstop]
    exact Gap.over_append b
  obtain ⟨h₁, h₂, h₃, h₄, h₅, -⟩ := tr.suffixes
  have hover₁ : g.Over tr.lineText.rest := hover.mono h₁
  have hover₂ : g.Over tr.lineStart.rest := hover₁.mono h₂
  have hover₃ : g.Over tr.headed.rest := hover₂.mono h₃
  have hover₄ : g.Over tr.named.rest := hover₃.mono h₄
  have hover₅ : g.Over tr.start.rest := hover₄.mono h₅
  obtain ⟨y, htwin, hitems⟩ := tr.items_before.readsAll (item_carries depth) ((repetitions Unit).item depth)
    (y := a ++ '\n' :: (g.filling ++ g.below)) (by rw [htext]; exact .before ha) fun _ => hover₅
  obtain ⟨y₁, htwin₁, hfound⟩ := tr.attributes_goes.reads hattributes htwin fun _ => hover₄
  obtain ⟨y₂, htwin₂, hhead⟩ := tr.heading_goes.reads hheading htwin₁ fun _ => hover₃
  have hpeek : Reads (peek (many1 indentation) : Parser Unit (List String)) y₂ tr.steps y₂ := by
    obtain ⟨c, hgoes⟩ := tr.indent_goes
    obtain ⟨y', -, hread⟩ := hgoes.reads (indent_carries.weaken id fun _ => trivial) htwin₂
      (hgoes.stays indent_stays htwin₂)
    exact hread.peek
  obtain ⟨y₃, htwin₃, habove⟩ := tr.lines_above.readsAll (bodyLine_carries depth hindent) hlines htwin₂ fun _ => hover₂
  obtain ⟨y₄, htwin₄, hstart⟩ := tr.indent_read.reads hword htwin₃ fun _ => hover₁
  obtain ⟨y₅, htwin₅, hupper⟩ := tr.upper_goes.reads hcontent htwin₄ fun _ => hover
  obtain ⟨b', -, hb', rfl⟩ := htwin₅.eq_of_over hover
  obtain rfl : b' = b := List.append_cancel_right (hb'.symm.trans hstop)
  have hline : Reads (bodyLine depth (String.join tr.steps) : Parser Unit Line) y₃ upper R := by
    refine hstart.bind ?_
    rw [line_eq]
    exact .traced (hupper.bind (hend.bind (.pure _ _)))
  have hbody : Reads (body depth : Parser Unit (List Line)) y₂ (above ++ upper :: more) R₁ := by
    have hrepeats := habove.repeats (.step hline (hline.shorter hlines) hmore)
    have hne : above ++ upper :: more ≠ [] := List.append_ne_nil_of_right_ne_nil above (List.cons_ne_nil upper more)
    obtain ⟨l, ls, hl⟩ := List.exists_cons_of_ne_nil hne
    rw [hl] at hrepeats ⊢
    exact .traced (hpeek.bind hrepeats.many1)
  have hrecipe : Reads (recipe depth : Parser Unit Recipe) y₁ { r with body := above ++ upper :: more } R₂ := by
    have hcheck := tr.check
    rw [tr.recipe_eq] at hcheck ⊢
    rw [Parsing.recipe_eq, draft_eq]
    refine .traced (.bind (hhead.bind (hbody.optional.bind (.pure _ _))) ?_)
    -- the check does not look at the body
    cases hc : Recipe.check { tr.head with body := above ++ upper :: more } with
    | error failure => exact absurd hc (hcheck failure)
    | ok u =>
      simp only [Option.getD_some, hc]
      exact hnewlines.bind (.pure _ _)
  refine ⟨y, hitems, ?_⟩
  have hdeclaration : Reads (declaration depth : Parser Unit Declaration) y₁ _ R₂ := .orElse_left (hrecipe.map _)
  have hitem : Reads (item depth : Parser Unit Item) y ⟨tr.found.getD [], _⟩ R₂ :=
    .traced (hfound.bind (hdeclaration.bind (.pure _ _)))
  rwa [tr.names_eq] at hitem

variable (tr : Trail depth text before names r above upper lower below after) {g : Gap} {a b : List Char}
  (ha : '\\' ∉ a) (htext : text = a ++ '\n' :: g.below) (hstop : tr.lineStop.rest = b ++ '\n' :: g.below) {d : Datum}
  {R : List Char} (hend : Reads (lineEnd : Parser Unit Datum) (b ++ '\n' :: (g.filling ++ g.below)) d R)

include ha htext hstop hend

/-- **Where the lower line is read again, so is all that follows.** -/
theorem Trail.file_reads (hnext : tr.next.rest <:+ g.below) {extra : List Line}
    (hextra : ReadsAll (bodyLine depth (String.join tr.steps) : Parser Unit Line) R extra tr.next.rest) :
    Reads (file depth : Parser Unit (List Item)) (a ++ '\n' :: (g.filling ++ g.below))
      (before ++ ⟨names, .recipe { r with body := above ++ upper :: (extra ++ lower :: below) }⟩ :: after) [] := by
  have hindent := tr.isIndent
  have hline : Carries g False False True (bodyLine depth (String.join tr.steps) : Parser Unit Line)
      (bodyLine depth (String.join tr.steps)) := bodyLine_carries depth hindent
  have hlines := (repetitions Unit).bodyLine depth (String.join tr.steps)
  have hitems := (repetitions Unit).item depth
  have hnewlines : Carries g False False True (many newline : Parser Unit (List String)) (many newline) :=
    newline_carries.many (repetitions Unit).newline
  have hlineEnds : Carries g False False True (many lineEnd : Parser Unit (List Datum)) (many lineEnd) :=
    lineEnd_carries.many (repetitions Unit).lineEnd
  -- all these places are after the gap
  have hbodyEnd := (tr.lines_below.suffix hlines).trans hnext
  obtain ⟨ss, hss⟩ := tr.newlines_go
  obtain ⟨ds, hds⟩ := tr.lineEnds_go
  have hitemEnd := (hss.suffix hnewlines.forward).trans hbodyEnd
  have hitemsEnd := (tr.items_after.suffix hitems).trans hitemEnd
  have hbelow : Repeats (bodyLine depth (String.join tr.steps) : Parser Unit Line) tr.next.rest (lower :: below ++ [])
      tr.bodyEnd.rest :=
    (tr.lines_below.readsAll_after hline hlines hnext).repeats (.stop (tr.body_ends.refuses_after hline hbodyEnd))
  rw [List.append_nil] at hbelow
  obtain ⟨y, hbefore, hitem⟩ := tr.item_reads ha htext hstop hend (hextra.repeats hbelow)
    (hss.reads_after hnewlines hbodyEnd)
  have hafter : Repeats (item depth : Parser Unit Item) tr.itemEnd.rest (after ++ []) tr.itemsEnd.rest :=
    (tr.items_after.readsAll_after (item_carries depth) hitems hitemEnd).repeats
      (.stop (tr.items_end.refuses_after (item_carries depth) hitemsEnd))
  rw [List.append_nil] at hafter
  have hall := hbefore.repeats (.step hitem (hitem.shorter hitems) hafter)
  have hblank := hds.reads_after hlineEnds hitemsEnd
  rw [tr.ended] at hblank
  have heof : Reads (eof : Parser Unit Unit) [] () [] := fun pos t => ⟨pos, 0, t, rfl⟩
  exact hall.many.bind (hblank.bind (.bind (.traced heof) (.pure _ _)))

/-- **Where no line is read, the body ends.** Whatever the rest is read as, the recipe has the lines above. -/
theorem Trail.items_begin (hnone : Refuses (bodyLine depth (String.join tr.steps) : Parser Unit Line) R)
    {items : List Item} {c : Cursor} (hfile : Goes (file depth) ⟨a ++ '\n' :: (g.filling ++ g.below), 0⟩ items c) :
    before ++ [⟨names, .recipe { r with body := above ++ [upper] }⟩] <+: items := by
  obtain ⟨ss, R', hnewlines⟩ := newlines_read (ω := Unit) R
  obtain ⟨y, hbefore, hitem⟩ := tr.item_reads ha htext hstop hend (.stop hnone) hnewlines.many
  obtain ⟨_, c₁, ⟨far, hmany⟩, h⟩ := hfile.parts
  obtain ⟨_, c₂, -, h⟩ := h.parts
  obtain ⟨_, c₃, -, h⟩ := h.parts
  obtain ⟨rfl, -⟩ := h.of_pure
  have hall : ReadsAll (item depth : Parser Unit Item) (a ++ '\n' :: (g.filling ++ g.below))
      (before ++ [⟨names, .recipe { r with body := above ++ [upper] }⟩]) R' :=
    hbefore.append (.cons hitem (hitem.shorter ((repetitions Unit).item depth)) .nil)
  exact hall.manyLoop_prefix _ _ _ _ _ _ _ _ _ (Nat.lt_succ_self _) hmany

end Filled

end Justfile.Parsing
