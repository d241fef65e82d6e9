import Justfile.Proofs.GapGrammar
import Justfile.Proofs.GapRuns

/-!
# Line ends and lines of blanks

* `LineEnds`: line ends, one after the other. They are read as one end of a line (`LineEnds.lineEnd_reads`), and the
  end of a line is such line ends, or a comment with one line end after it (`lineEnd_parts`).
* `LineEnds.bodyLine_reads_blanks`: in a body, a line that has blanks after the indentation is a line with these blanks
  as its text. `LineEnds.bodyLine_refuses_blanks`: any other line of blanks is no line of the body.
* `return_of_text_failed`: plain text is refused inside a line only at a carriage return.
-/

namespace Justfile.Parsing

open Justfile.Parsing.Parser

theorem isSpace_of_startsNewline {d : Char} (hd : startsNewline d = true) : isSpace d = false := by
  rcases Bool.or_eq_true_iff.1 hd with h | h <;> rw [beq_iff_eq.1 h] <;> rfl

theorem startsNewline_of_isSpace {d : Char} (hd : isSpace d = true) : startsNewline d = false := by
  rcases Bool.or_eq_true_iff.1 hd with h | h <;> rw [beq_iff_eq.1 h] <;> rfl

theorem isSpace_ne {c d : Char} (hd : isSpace d = true) (hc : isSpace c = false) : c ≠ d := by
  rintro rfl
  rw [hc] at hd
  cases hd

theorem startsNewline_ne {c d : Char} (hd : startsNewline d = true) (hc : startsNewline c = false) : c ≠ d := by
  rintro rfl
  rw [hc] at hd
  cases hd

theorem IsIndent.not_atLineEnd {indent z : List Char} (h : IsIndent indent) (hz : indent <+: z) : ¬AtLineEnd z := by
  obtain ⟨d, indent, rfl⟩ := List.exists_cons_of_ne_nil h.1
  obtain ⟨z, rfl⟩ := hz
  have hd := startsNewline_of_isSpace (h.2 d List.mem_cons_self)
  rintro (⟨x, hx⟩ | ⟨x, hx⟩)
  · obtain ⟨rfl, -⟩ : '\n' = d ∧ _ := List.cons.inj hx
    cases hd
  · obtain ⟨rfl, -⟩ : '\r' = d ∧ _ := List.cons.inj hx
    cases hd

section LineEnds

variable {ω : Type} [Listener ω] {u v z rest : List Char}

/-- Line ends, one after the other. -/
inductive LineEnds : List Char → Prop
  | nil : LineEnds []
  | feed {cs : List Char} : LineEnds cs → LineEnds ('\n' :: cs)
  | both {cs : List Char} : LineEnds cs → LineEnds ('\r' :: '\n' :: cs)

namespace LineEnds

theorem append (hu : LineEnds u) (hv : LineEnds v) : LineEnds (u ++ v) := by
  induction hu with
  | nil => exact hv
  | feed _ ih => exact .feed ih
  | both _ ih => exact .both ih

theorem right (hu : LineEnds u) (h : LineEnds (u ++ v)) : LineEnds v := by
  induction hu with
  | nil => exact h
  | feed _ ih =>
    cases h with
    | feed h => exact ih h
  | both _ ih =>
    cases h with
    | both h => exact ih h

theorem blank (hu : LineEnds u) : ∀ d ∈ u, Text.isBlank d = true := by
  induction hu with
  | nil => simp
  | feed _ ih => exact List.forall_mem_cons.2 ⟨rfl, ih⟩
  | both _ ih => exact List.forall_mem_cons.2 ⟨rfl, List.forall_mem_cons.2 ⟨rfl, ih⟩⟩

theorem starts (hu : LineEnds u) (hne : u ≠ []) : ∃ d u', u = d :: u' ∧ startsNewline d = true := by
  cases hu with
  | nil => exact absurd rfl hne
  | feed _ => exact ⟨_, _, rfl, rfl⟩
  | both _ => exact ⟨_, _, rfl, rfl⟩

theorem ends (hu : LineEnds u) (hne : u ≠ []) : ∃ init, u = init ++ ['\n'] := by
  induction hu with
  | nil => exact absurd rfl hne
  | feed h ih =>
    rename_i cs
    by_cases hcs : cs = []
    · exact ⟨[], by rw [hcs]; rfl⟩
    · obtain ⟨init, rfl⟩ := ih hcs
      exact ⟨'\n' :: init, rfl⟩
  | both h ih =>
    rename_i cs
    by_cases hcs : cs = []
    · exact ⟨['\r'], by rw [hcs]; rfl⟩
    · obtain ⟨init, rfl⟩ := ih hcs
      exact ⟨'\r' :: '\n' :: init, rfl⟩

theorem repeats (hu : LineEnds u) (hrest : ¬AtLineEnd rest) :
    ∃ ss, Repeats (newline : Parser ω String) (u ++ rest) ss rest := by
  induction hu with
  | nil => exact ⟨[], .stop (newline_refuses_of_not_atLineEnd hrest)⟩
  | feed _ ih =>
    obtain ⟨ss, hss⟩ := ih
    exact ⟨_, .step (newline_reads _) (by simp) hss⟩
  | both _ ih =>
    obtain ⟨ss, hss⟩ := ih
    exact ⟨_, .step (newline_reads_return _) (by simp) hss⟩

/-- After blanks, line ends are no number sign. -/
theorem avoids_sign (hu : LineEnds u) (hne : u ≠ []) {w : List Char} (hw : ∀ d ∈ w, isSpace d = true) :
    Avoids (· == '#') ((w ++ (u ++ rest)).dropWhile isSpace) := by
  obtain ⟨d, u', rfl, hd⟩ := hu.starts hne
  rw [List.cons_append, dropWhile_append_cons hw (isSpace_of_startsNewline hd)]
  exact avoids_of_ne (startsNewline_ne hd rfl).symm _

theorem comment_refuses (hu : LineEnds u) (hne : u ≠ []) : Refuses (comment : Parser ω Declaration) (u ++ rest) :=
  Parsing.comment_refuses (hu.avoids_sign hne (w := []) fun _ hd => absurd hd List.not_mem_nil)

/-- Line ends are read as one end of a line. -/
theorem lineEnd_reads (hu : LineEnds u) (hne : u ≠ []) (hrest : ¬AtLineEnd rest) :
    ∃ d, Reads (lineEnd : Parser ω Datum) (u ++ rest) d rest := by
  have hmany : ∃ ss, Reads (many1 newline : Parser ω (List String)) (u ++ rest) ss rest := by
    cases hu with
    | nil => exact absurd rfl hne
    | feed h =>
      obtain ⟨ss, hss⟩ := h.repeats (ω := ω) hrest
      exact ⟨_, (newline_reads _).bind (hss.many.bind (.pure _ _))⟩
    | both h =>
      obtain ⟨ss, hss⟩ := h.repeats (ω := ω) hrest
      exact ⟨_, (newline_reads_return _).bind (hss.many.bind (.pure _ _))⟩
  obtain ⟨ss, hss⟩ := hmany
  exact ⟨_, .traced (.orElse_right (hu.comment_refuses hne).bind (hss.map _))⟩

end LineEnds

variable {w : List Char} (depth : Nat)

/-- Braces stand neither at the end of a line nor in blanks. -/
theorem braces_refuse_of_ne {d : Char} (hd : '\x7b' ≠ d) (z : List Char) :
    Refuses (doubledBraces : Parser ω Fragment) (d :: z) ∧ Refuses (interpolation depth : Parser ω Fragment) (d :: z) :=
  ⟨.map _ (word_refuses _ rfl hd), .traced (.bind (word_refuses _ rfl hd))⟩

theorem lineLead_refuses {d : Char} (hat : '@' ≠ d) (hdash : '-' ≠ d) (z : List Char) :
    Refuses (lineLead : Parser ω String) (d :: z) :=
  .traced (.orElse (word_refuses _ rfl hat) (.orElse (word_refuses _ rfl hdash)
    (.orElse (word_refuses _ rfl hat) (word_refuses _ rfl hdash))))

/-- Where a line ends, its text does. -/
theorem textEnd_reads_of_atLineEnd (h : AtLineEnd z) : ∃ b r, Reads (textEnd depth : Parser ω Unit) z b r := by
  have hfirst : ∃ d z', z = d :: z' ∧ startsNewline d = true := by
    rcases h with ⟨x, rfl⟩ | ⟨x, rfl⟩
    · exact ⟨_, _, rfl, rfl⟩
    · exact ⟨_, _, rfl, rfl⟩
  have hmany : ∃ ss r, Reads (many1 newline : Parser ω (List String)) z ss r := by
    rcases h with ⟨x, rfl⟩ | ⟨x, rfl⟩
    · obtain ⟨ss, r, hss⟩ := newlines_read (ω := ω) x
      exact ⟨_, r, (newline_reads x).bind (hss.many.bind (.pure _ _))⟩
    · obtain ⟨ss, r, hss⟩ := newlines_read (ω := ω) x
      exact ⟨_, r, (newline_reads_return x).bind (hss.many.bind (.pure _ _))⟩
  obtain ⟨d, z, rfl, hd⟩ := hfirst
  obtain ⟨ss, r, hss⟩ := hmany
  have hcomment : Refuses (comment : Parser ω Declaration) (d :: z) := by
    refine comment_refuses ?_
    rw [(avoids_cons (isSpace_of_startsNewline hd) z).dropWhile]
    exact avoids_of_ne (startsNewline_ne hd rfl).symm z
  have hline : Reads (lineEnd : Parser ω Datum) (d :: z) _ r := .traced (.orElse_right hcomment.bind (hss.map _))
  obtain ⟨hdoubled, hopen⟩ := braces_refuse_of_ne (ω := ω) depth (startsNewline_ne hd rfl) z
  exact ⟨_, _, .orElse_right (.map _ hdoubled) (.orElse_right (.map _ hopen) (hline.map _))⟩

/-- **Plain text is refused inside a line only at a carriage return.** -/
theorem return_of_text_failed (depth : Nat) : ∀ m count acc c far, c.rest.length < m → '\n' ∈ c.rest →
    (count = 0 → ∀ z, c.rest ≠ '\n' :: z) →
    Parser.untilLoop (satisfy fun c => c != '\r' && c != '\n' : Parser Unit Char) (textEnd depth) 1 m count acc c () =
      (.failed far, ()) → '\r' ∈ c.rest := by
  intro m
  induction m with
  | zero =>
    intro count acc c far hlen
    omega
  | succ m ih =>
    intro count acc c far hlen hline hfirst hrun
    obtain ⟨rest, pos⟩ := c
    obtain ⟨d, rest, rfl⟩ := List.exists_cons_of_ne_nil (List.ne_nil_of_mem hline)
    by_cases hreturn : d = '\r'
    · rw [hreturn]
      exact List.mem_cons_self
    rw [untilLoop_succ] at hrun
    have hfeed : d ≠ '\n' := by
      rintro rfl
      -- the text would have stopped here
      have hcount : 1 ≤ count := by
        by_contra hzero
        exact hfirst (by omega) rest rfl
      have hend : AtLineEnd ('\n' :: rest) := .inl ⟨rest, rfl⟩
      obtain ⟨b, r, hread⟩ := textEnd_reads_of_atLineEnd (ω := Unit) depth hend
      obtain ⟨next, far', t, hstop⟩ := hread pos ()
      rw [hstop] at hrun
      simp [hcount] at hrun
    have hchar : (satisfy fun c => c != '\r' && c != '\n' : Parser Unit Char).run ⟨d :: rest, pos⟩ () =
        (.done d ⟨rest, pos + 1⟩ 0, ()) := by
      simp [satisfy, hreturn, hfeed]
    have hmore : '\n' ∈ rest := (List.mem_cons.1 hline).resolve_left fun h => hfeed h.symm
    have hnext : untilRound (satisfy fun c => c != '\r' && c != '\n' : Parser Unit Char) (textEnd depth) 1 m count acc
        ⟨d :: rest, pos⟩ () = (.failed far, ()) → '\r' ∈ d :: rest := by
      intro h
      rw [untilRound, hchar] at h
      exact List.mem_cons_of_mem _
        (ih (count + 1) (d :: acc) ⟨rest, pos + 1⟩ far (Nat.lt_of_succ_lt_succ hlen) hmore (by omega) h)
    rcases hstop : (textEnd depth : Parser Unit Unit).run ⟨d :: rest, pos⟩ () with ⟨o, t⟩
    rw [hstop] at hrun
    cases o with
    | done b next far' =>
      simp only at hrun
      split at hrun
      · cases hrun
      · exact hnext hrun
    | failed far' => exact hnext hrun
    | rejected recipe => cases hrun

namespace LineEnds

variable (hu : LineEnds u) (hne : u ≠ [])

include hu hne

theorem atLineEnd (rest : List Char) : AtLineEnd (u ++ rest) := by
  cases hu with
  | nil => exact absurd rfl hne
  | feed _ => exact .inl (List.prefix_append ['\n'] _)
  | both _ => exact .inr (List.prefix_append ['\r', '\n'] _)

/-- Nothing is read of a line at its end. -/
theorem piece_refuses (rest : List Char) :
    Refuses (doubledBraces <|> interpolation depth <|> plainText depth : Parser ω Fragment) (u ++ rest) := by
  have hdecides : Decides (textEnd depth : Parser ω Unit) (u ++ rest) :=
    .inl (textEnd_reads_of_atLineEnd depth (hu.atLineEnd hne rest))
  obtain ⟨d, u', rfl, hd⟩ := hu.starts hne
  obtain ⟨hdoubled, hopen⟩ := braces_refuse_of_ne (ω := ω) depth (startsNewline_ne hd rfl) (u' ++ rest)
  have hchar : Refuses (satisfy fun c => c != '\r' && c != '\n' : Parser ω Char) (d :: u' ++ rest) := by
    intro pos t
    refine ⟨pos, t, ?_⟩
    rcases Bool.or_eq_true_iff.1 hd with h | h <;> rw [beq_iff_eq.1 h] <;> rfl
  exact .orElse hdoubled (.orElse hopen (.map _ (.untilEnd_one hdecides hchar)))

/-- There is no line without text. -/
theorem line_refuses (rest : List Char) : Refuses (line depth : Parser ω Line) (u ++ rest) := by
  have hpiece := hu.piece_refuses (ω := ω) depth hne rest
  obtain ⟨d, u', rfl, hd⟩ := hu.starts hne
  have hlead := lineLead_refuses (ω := ω) (startsNewline_ne hd rfl) (startsNewline_ne hd rfl) (u' ++ rest)
  exact .traced (.bind_right hlead.optional (.bind (.bind hpiece)))

variable (hw : ∀ d ∈ w, isSpace d = true)

include hw

/-- Blanks are read as text, up to the end of their line. -/
theorem blanks_gather (rest : List Char) :
    Gathers (satisfy fun c => c != '\r' && c != '\n' : Parser ω Char) (textEnd depth) (w ++ (u ++ rest)) w (u ++ rest) ∧
     (w ≠ [] → Refuses (textEnd depth : Parser ω Unit) (w ++ (u ++ rest))) := by
  induction w with
  | nil =>
    obtain ⟨b, r, hend⟩ := textEnd_reads_of_atLineEnd (ω := ω) depth (hu.atLineEnd hne rest)
    exact ⟨.stop hend, fun h => absurd rfl h⟩
  | cons d w ih =>
    obtain ⟨hgather, -⟩ := ih fun d' hd' => hw d' (List.mem_cons_of_mem _ hd')
    have hd := hw d List.mem_cons_self
    obtain ⟨hdoubled, hopen⟩ := braces_refuse_of_ne (ω := ω) depth (isSpace_ne hd rfl) (w ++ (u ++ rest))
    have hline : Refuses (lineEnd : Parser ω Datum) (d :: (w ++ (u ++ rest))) := by
      exact lineEnd_refuses (hu.avoids_sign hne (w := d :: w) hw) (avoids_cons (startsNewline_of_isSpace hd) _)
    have hrefuse : Refuses (textEnd depth : Parser ω Unit) (d :: (w ++ (u ++ rest))) :=
      .orElse (.map _ hdoubled) (.orElse (.map _ hopen) (.map _ hline))
    have hchar : (d != '\r' && d != '\n') = true := by
      rcases Bool.or_eq_true_iff.1 hd with h | h <;> rw [beq_iff_eq.1 h] <;> rfl
    exact ⟨.step hrefuse (.satisfy hchar _) (Nat.lt_succ_self _) hgather, fun _ => hrefuse⟩

/-- **A line of blanks is read as a line with these blanks as its text.** -/
theorem blankLine_reads (hrest : ¬AtLineEnd rest) (hwne : w ≠ []) :
    Reads (line depth : Parser ω Line) (w ++ (u ++ rest)) ⟨none, [.text (String.ofList w)]⟩ rest := by
  obtain ⟨hgather, hrefuse⟩ := hu.blanks_gather (ω := ω) depth hne hw rest
  obtain ⟨d, w, rfl⟩ := List.exists_cons_of_ne_nil hwne
  have hd := hw d List.mem_cons_self
  obtain ⟨hdoubled, hopen⟩ := braces_refuse_of_ne (ω := ω) depth (isSpace_ne hd rfl) (w ++ (u ++ rest))
  have hlead := lineLead_refuses (ω := ω) (isSpace_ne hd rfl) (isSpace_ne hd rfl) (w ++ (u ++ rest))
  have htext : Reads (plainText depth : Parser ω Fragment) (d :: (w ++ (u ++ rest))) (.text (String.ofList (d :: w)))
      (u ++ rest) := by
    cases hgather with
    | step _ hchar hlt hmore => exact (Gathers.untilEnd_one (.inr (hrefuse hwne)) hchar hlt hmore).map _
  obtain ⟨b, hline⟩ := hu.lineEnd_reads (ω := ω) hne hrest
  have hpieces : Repeats (doubledBraces <|> interpolation depth <|> plainText depth : Parser ω Fragment)
      (d :: (w ++ (u ++ rest))) [.text (String.ofList (d :: w))] (u ++ rest) := by
    refine .step (.orElse_right hdoubled (.orElse_right hopen htext)) ?_ (.stop (hu.piece_refuses depth hne rest))
    simp only [List.length_cons, List.length_append]
    omega
  exact .traced (hlead.optional.bind (hpieces.many1.bind (hline.bind (.pure _ _))))

/-- A line of more blanks than the indentation is a line of the body. -/
theorem bodyLine_reads_blanks (hrest : ¬AtLineEnd rest) (indent : String) (hwne : w ≠ []) :
    Reads (bodyLine depth indent : Parser ω Line) ((indent.toList ++ w) ++ (u ++ rest))
      ⟨none, [.text (String.ofList w)]⟩ rest := by
  rw [List.append_assoc]
  exact (Reads.word indent _).bind (hu.blankLine_reads depth hne hw hrest hwne)

/-- A line of other blanks is none. -/
theorem bodyLine_refuses_blanks {indent : String} (hindent : IsIndent indent.toList)
    (hshort : ∀ w', w = indent.toList ++ w' → w' = []) :
    Refuses (bodyLine depth indent : Parser ω Line) (w ++ (u ++ rest)) := by
  by_cases hstart : indent.toList <+: w
  · obtain ⟨w', rfl⟩ := hstart
    rw [hshort w' rfl, List.append_nil]
    exact .bind_right (Reads.word indent _) (hu.line_refuses depth hne rest)
  · refine .bind (.word (after?_eq_none fun hlong => ?_))
    -- the indentation would have to go on with a line end
    have hwlong : w <+: w ++ (u ++ rest) := List.prefix_append _ _
    rcases Nat.le_total indent.toList.length w.length with hle | hle
    · exact hstart (List.prefix_of_prefix_length_le hlong hwlong hle)
    · obtain ⟨x, hx⟩ := List.prefix_of_prefix_length_le hwlong hlong hle
      cases x with
      | nil =>
        rw [List.append_nil] at hx
        exact hstart (hx ▸ List.prefix_rfl)
      | cons d x =>
        obtain ⟨e, u', rfl, he⟩ := hu.starts hne
        rw [← hx, List.prefix_append_right_inj, List.cons_append, List.cons_prefix_cons] at hlong
        have hd := hindent.2 d (hx ▸ List.mem_append_right w List.mem_cons_self)
        rw [hlong.1] at hd
        exact isSpace_ne hd (isSpace_of_startsNewline he) rfl

end LineEnds

end LineEnds

theorem newline_goes {c c' : Cursor} {s : String} (h : Goes newline c s c') :
    c.rest = '\n' :: c'.rest ∨ c.rest = '\r' :: '\n' :: c'.rest := by
  by_cases hend : AtLineEnd c.rest
  · rcases hend with ⟨rest, hrest⟩ | ⟨rest, hrest⟩
    · have hfeed : c.rest = '\n' :: rest := hrest.symm
      obtain ⟨-, heq⟩ := h.eq_of_reads (hfeed ▸ newline_reads rest)
      exact .inl (heq ▸ hfeed)
    · have hboth : c.rest = '\r' :: '\n' :: rest := hrest.symm
      obtain ⟨-, heq⟩ := h.eq_of_reads (hboth ▸ newline_reads_return rest)
      exact .inr (heq ▸ hboth)
  · exact absurd (newline_refuses_of_not_atLineEnd hend) h.not_refuses

theorem newlines_run {c c' : Cursor} {ss : List String} (h : Runs newline c ss c') :
    ∃ u, LineEnds u ∧ (ss ≠ [] → u ≠ []) ∧ c.rest = u ++ c'.rest := by
  induction h with
  | nil => exact ⟨[], .nil, fun h => absurd rfl h, rfl⟩
  | cons hone _ ih =>
    obtain ⟨u, hu, -, heq⟩ := ih
    rcases newline_goes hone with hrest | hrest
    · exact ⟨'\n' :: u, hu.feed, fun _ => List.cons_ne_nil _ _, by rw [hrest, heq]; rfl⟩
    · exact ⟨'\r' :: '\n' :: u, hu.both, fun _ => List.cons_ne_nil _ _, by rw [hrest, heq]; rfl⟩

/-- An end of a line is line ends, or a comment and a line end. -/
theorem lineEnd_parts {c c' : Cursor} {d : Datum} (h : Goes lineEnd c d c') :
    (∃ u, LineEnds u ∧ u ≠ [] ∧ c.rest = u ++ c'.rest) ∨ ∃ d c₁, Goes comment c d c₁ ∧ ∃ s, Goes newline c₁ s c' := by
  obtain ⟨far, h⟩ := h.of_traced
  rcases orElse_eq_done h with h | ⟨far₁, t₁, far₂, -, h⟩
  · obtain ⟨d, c₁, hcomment, h⟩ := Goes.parts ⟨far, h⟩
    obtain ⟨s, c₂, hnewline, h⟩ := h.parts
    obtain ⟨-, rfl⟩ := h.of_pure
    exact .inr ⟨d, c₁, hcomment, s, hnewline⟩
  · obtain ⟨ss, c₁, hmany, h⟩ := Goes.parts ⟨far₂, h⟩
    obtain ⟨-, rfl⟩ := h.of_pure
    obtain ⟨hruns, -⟩ := Runs.of_many1 (repetitions Unit).newline hmany
    obtain ⟨u, hu, hne, heq⟩ := newlines_run hruns
    obtain ⟨far₃, hrun⟩ := hmany
    exact .inl ⟨u, hu, hne (Yields.many1_ne_nil _ _ _ _ _ _ _ hrun), heq⟩

end Justfile.Parsing
