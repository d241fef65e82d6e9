import Justfile.Parsing.File
import Justfile.Proofs.LineEnds

/-!
# Lines of a recipe's body

A line is its lead, pieces of text, and an end. A piece of plain text is read character by character
up to where an interpolation or an end of the line could be read, so how a line falls into pieces
depends on what all its suffixes look like to other rules.

* `leadOf`: the marks a line starts with. `lead_reads`: they are read whatever follows.
* `Plain`: a text on one line without doubled braces.
* `pieces_repeat`: the last line of a text falls into pieces that together are the line.
* `wholeText_reads`: without a number sign it is a single piece.
* `body_reads`: a body is its lines, each after four blanks.
-/

namespace Justfile.Parsing

open Justfile.Parsing.Parser

section Lead

/-- The marks a line starts with, and what follows them. -/
def leadOf : List Char → Option String × List Char
  | '@' :: '-' :: cs => (some "@-", cs)
  | '-' :: '@' :: cs => (some "-@", cs)
  | '@' :: cs => (some "@", cs)
  | '-' :: cs => (some "-", cs)
  | cs => (none, cs)

theorem avoids_of_not_cons {c : Char} {cs : List Char} (h : ∀ ds, cs = c :: ds → False) :
    Avoids (· == c) cs := by
  cases cs with
  | nil => exact avoids_nil _
  | cons d ds =>
    refine avoids_of_ne ?_ ds
    rintro rfl
    exact h ds rfl

theorem leadOf_append (w : List Char) (rest : List Char) :
    leadOf (w ++ '\n' :: rest) = ((leadOf w).1, (leadOf w).2 ++ '\n' :: rest) := by
  fun_cases leadOf w with
  | case1 cs => rfl
  | case2 cs => rfl
  | case3 cs hnot => cases cs <;> simp_all [leadOf]
  | case4 cs hnot => cases cs <;> simp_all [leadOf]
  | case5 => cases w <;> simp_all [leadOf]

theorem leadOf_spelled (w : List Char) : ((leadOf w).1.getD "").toList ++ (leadOf w).2 = w := by
  fun_cases leadOf w <;> simp

variable {ω : Type} [Listener ω]

omit [Listener ω] in
/-- A word of two characters is refused where its second one does not stand. -/
theorem word_refuses_after {c d : Char} {cs : List Char} (s : String) (hs : s.toList = [c, d])
    (h : Avoids (· == d) cs) : Refuses (word s : Parser ω String) (c :: cs) := by
  cases cs with
  | nil => exact .word (by simp only [hs, after?, if_true])
  | cons x cs => exact word_refuses_second s hs fun hx => by simpa [hx] using h x rfl

/-- **The lead of a line is read** whatever follows it. -/
theorem lead_reads (cs : List Char) :
    Reads (optional lineLead : Parser ω (Option String)) cs (leadOf cs).1 (leadOf cs).2 := by
  fun_cases leadOf cs with
  | case1 cs => exact .optional (.traced (.orElse_left (Reads.word "@-" cs)))
  | case2 cs =>
    have h₁ : Refuses (word "@-" : Parser ω String) ('-' :: '@' :: cs) := word_refuses _ rfl (by decide)
    exact .optional (.traced (.orElse_right h₁ (.orElse_left (Reads.word "-@" cs))))
  -- leads of two marks are tried first, and one mark is a lead only if the other does not follow
  | case3 cs hnot =>
    have h₁ : Refuses (word "@-" : Parser ω String) ('@' :: cs) :=
      word_refuses_after _ rfl (avoids_of_not_cons hnot)
    have h₂ : Refuses (word "-@" : Parser ω String) ('@' :: cs) := word_refuses _ rfl (by decide)
    exact .optional (.traced (.orElse_right h₁ (.orElse_right h₂ (.orElse_left (Reads.word "@" cs)))))
  | case4 cs hnot =>
    have h₁ : Refuses (word "@-" : Parser ω String) ('-' :: cs) := word_refuses _ rfl (by decide)
    have h₂ : Refuses (word "-@" : Parser ω String) ('-' :: cs) :=
      word_refuses_after _ rfl (avoids_of_not_cons hnot)
    have h₃ : Refuses (word "@" : Parser ω String) ('-' :: cs) := word_refuses _ rfl (by decide)
    exact .optional (.traced (.orElse_right h₁ (.orElse_right h₂ (.orElse_right h₃ (Reads.word "-" cs)))))
  | case5 _ _ _ hnotAt hnotDash =>
    have hat : Avoids (· == '@') cs := avoids_of_not_cons hnotAt
    have hdash : Avoids (· == '-') cs := avoids_of_not_cons hnotDash
    refine Refuses.optional (.traced (.orElse ?_ (.orElse ?_ (.orElse ?_ ?_))))
    · exact word_refuses_of_avoids _ rfl hat
    · exact word_refuses_of_avoids _ rfl hdash
    · exact word_refuses_of_avoids _ rfl hat
    · exact word_refuses_of_avoids _ rfl hdash

end Lead

section Text

/-- A text on one line without doubled braces. -/
structure Plain (u : List Char) : Prop where
  line : ∀ c ∈ u, startsNewline c = false
  braces : ¬ "\x7b\x7b".toList <:+: u

theorem Plain.suffix {u v : List Char} (h : Plain u) (hv : v <:+ u) : Plain v :=
  ⟨fun c hc => h.line c (hv.subset hc), fun hb => h.braces (hb.trans hv.isInfix)⟩

variable {ω : Type} [Listener ω] {depth : Nat} {u rest tail : List Char} {d : Datum}

omit [Listener ω] in
/-- A word that does not stand at the start of a line. -/
theorem word_refuses_line {s : String} (hs : '\n' ∉ s.toList) (h : ¬ s.toList <+: u) (rest : List Char) :
    Refuses (word s : Parser ω String) (u ++ '\n' :: rest) := by
  refine .word (after?_eq_none fun hp => ?_)
  by_cases hlen : s.toList.length ≤ u.length
  · exact h (List.prefix_of_prefix_length_le hp (List.prefix_append _ _) hlen)
  · -- the word is longer than the line, so the line feed is in it
    have hline : u ++ ['\n'] <+: s.toList := by
      refine List.prefix_of_prefix_length_le ?_ hp (by simp; omega)
      exact ⟨rest, by simp⟩
    exact hs (hline.subset (by simp))

/-- Without doubled braces there are no interpolations. -/
theorem braces_refuse (h : Plain u) (depth : Nat) (rest : List Char) :
    Refuses (doubledBraces : Parser ω Fragment) (u ++ '\n' :: rest) ∧
      Refuses (interpolation depth : Parser ω Fragment) (u ++ '\n' :: rest) := by
  have htwo : ¬ "\x7b\x7b".toList <+: u := fun hp => h.braces hp.isInfix
  have hfour : ¬ "\x7b\x7b\x7b\x7b".toList <+: u := fun hp =>
    htwo (List.IsPrefix.trans ⟨"\x7b\x7b".toList, rfl⟩ hp)
  exact ⟨.map _ (word_refuses_line (by decide) hfour rest),
    .traced (.bind (word_refuses_line (by decide) htwo rest))⟩

/-- Plain text ends where the line ends. -/
theorem textEnd_reads (h : Plain u) (hend : Reads (lineEnd : Parser ω Datum) (u ++ '\n' :: rest) d tail) :
    Reads (textEnd depth : Parser ω Unit) (u ++ '\n' :: rest) () tail := by
  obtain ⟨hfour, htwo⟩ := braces_refuse (ω := ω) h depth rest
  exact .orElse_right (.map _ hfour) (.orElse_right (.map _ htwo) (hend.map _))

theorem textEnd_refuses (h : Plain u) (hend : Refuses (lineEnd : Parser ω Datum) (u ++ '\n' :: rest)) :
    Refuses (textEnd depth : Parser ω Unit) (u ++ '\n' :: rest) := by
  obtain ⟨hfour, htwo⟩ := braces_refuse (ω := ω) h depth rest
  exact .orElse (.map _ hfour) (.orElse (.map _ htwo) (.map _ hend))

/-- A piece of a line. -/
def piece (depth : Nat) : Parser ω Fragment :=
  doubledBraces <|> interpolation depth <|> plainText depth

/-- The characters of plain text. -/
def textChar : Parser ω Char :=
  satisfy fun c => c != '\r' && c != '\n'

omit [Listener ω] in
theorem textChar_reads {c : Char} (h : startsNewline c = false) (cs : List Char) :
    Reads (textChar : Parser ω Char) (c :: cs) c cs := by
  refine .satisfy ?_ cs
  simp only [startsNewline, Bool.or_eq_false_iff, beq_eq_false_iff_ne] at h
  simp [h.1, h.2]

/-- A first character and what is gathered after it make a piece. -/
theorem piece_of_gathers {c : Char} {v₁ v₂ : List Char} (h : Plain (c :: u))
    (hdecides : Decides (textEnd depth : Parser ω Unit) (c :: u ++ '\n' :: rest))
    (hu : Gathers (textChar : Parser ω Char) (textEnd depth) (u ++ '\n' :: rest) v₁ v₂) :
    Reads (piece depth : Parser ω Fragment) (c :: u ++ '\n' :: rest) (.text (String.ofList (c :: v₁)))
      v₂ := by
  obtain ⟨hfour, htwo⟩ := braces_refuse (ω := ω) h depth rest
  have hc := textChar_reads (ω := ω) (h.line c List.mem_cons_self) (u ++ '\n' :: rest)
  refine .orElse_right hfour (.orElse_right htwo (.map _ ?_))
  exact Gathers.untilEnd_one hdecides hc (Nat.lt_succ_self _) hu

/-- No piece starts with the line feed that ends its line. -/
theorem piece_refuses (hend : Reads (lineEnd : Parser ω Datum) ('\n' :: rest) d tail) :
    Refuses (piece depth : Parser ω Fragment) ('\n' :: rest) := by
  have hplain : Plain [] := ⟨fun c hc => absurd hc List.not_mem_nil, by decide⟩
  obtain ⟨hfour, htwo⟩ := braces_refuse (ω := ω) hplain depth rest
  have hstop : Reads (textEnd depth : Parser ω Unit) ('\n' :: rest) () tail := textEnd_reads hplain hend
  have hchar : Refuses (textChar : Parser ω Char) ('\n' :: rest) := fun pos t => ⟨pos, t, rfl⟩
  exact .orElse hfour (.orElse htwo (.map _ (.untilEnd_one (.inl ⟨_, _, hstop⟩) hchar)))

/-- Without a number sign a line does not end before its line feed. -/
theorem lineEnd_refuses_plain {c : Char} (h : Plain (c :: u)) (hsign : '#' ∉ c :: u) (rest : List Char) :
    Refuses (lineEnd : Parser ω Datum) (c :: u ++ '\n' :: rest) := by
  refine lineEnd_refuses ?_ (avoids_cons (h.line c List.mem_cons_self) _)
  rw [dropWhile_line _ rfl]
  intro x hx
  refine beq_false_of_ne ?_
  rintro rfl
  cases hv : (c :: u).dropWhile isSpace with
  | nil => rw [hv] at hx; cases hx
  | cons y v =>
    rw [hv] at hx
    cases hx
    exact hsign ((List.dropWhile_suffix _).subset (hv ▸ List.mem_cons_self))

/-- **Without a number sign a line is a single piece.** -/
theorem wholeText_reads {c : Char} (h : Plain (c :: u)) (hsign : '#' ∉ c :: u)
    (hend : Reads (lineEnd : Parser ω Datum) ('\n' :: rest) d tail) :
    Reads (piece depth : Parser ω Fragment) (c :: u ++ '\n' :: rest) (.text (String.ofList (c :: u)))
      ('\n' :: rest) := by
  have hstop : Reads (textEnd depth : Parser ω Unit) ([] ++ '\n' :: rest) () tail :=
    textEnd_reads (h.suffix List.nil_suffix) hend
  have hgather : ∀ v : List Char, v <:+ c :: u →
      Gathers (textChar : Parser ω Char) (textEnd depth) (v ++ '\n' :: rest) v ('\n' :: rest) := by
    intro v
    induction v with
    | nil => exact fun _ => .stop hstop
    | cons x v ih =>
      intro hv
      have hplain := h.suffix hv
      have hno := lineEnd_refuses_plain (ω := ω) hplain (fun hx => hsign (hv.subset hx)) rest
      have hx := textChar_reads (ω := ω) (hplain.line x List.mem_cons_self) (v ++ '\n' :: rest)
      exact .step (textEnd_refuses hplain hno) hx (Nat.lt_succ_self _) (ih ((List.suffix_cons x v).trans hv))
  have hno : Refuses (textEnd depth : Parser ω Unit) (c :: u ++ '\n' :: rest) :=
    textEnd_refuses h (lineEnd_refuses_plain h hsign rest)
  exact piece_of_gathers h (.inr hno) (hgather u (List.suffix_cons c u))

/-- On the last line of a text, whether plain text ends depends on the text alone. -/
theorem textEnd_decides (depth : Nat) (h : Plain u) :
    Decides (textEnd depth : Parser ω Unit) (u ++ ['\n', '\n']) := by
  rcases lineEnd_decides (ω := ω) h.line with ⟨d, tail, hend⟩ | hend
  · exact .inl ⟨(), tail, textEnd_reads h hend⟩
  · exact .inr (textEnd_refuses h hend)

/-- Characters are gathered up to the first place where plain text ends. -/
theorem text_gathers (depth : Nat) (h : Plain u) :
    ∃ v₁ v₂, u = v₁ ++ v₂ ∧ Gathers (textChar : Parser ω Char) (textEnd depth) (u ++ ['\n', '\n']) v₁
      (v₂ ++ ['\n', '\n']) := by
  induction u with
  | nil =>
    obtain ⟨d, hend⟩ := lineEnd_reads (ω := ω)
    have hstop : Reads (textEnd depth : Parser ω Unit) ([] ++ ['\n', '\n']) () [] := textEnd_reads h hend
    exact ⟨[], [], rfl, .stop hstop⟩
  | cons c u ih =>
    rcases textEnd_decides (ω := ω) depth h with ⟨_, tail, hstop⟩ | hno
    · exact ⟨[], c :: u, rfl, .stop hstop⟩
    · obtain ⟨v₁, v₂, hu, hgather⟩ := ih (h.suffix (List.suffix_cons c u))
      have hc := textChar_reads (ω := ω) (h.line c List.mem_cons_self) (u ++ ['\n', '\n'])
      exact ⟨c :: v₁, v₂, by rw [hu]; rfl, .step hno hc (Nat.lt_succ_self _) hgather⟩

/-- **The last line of a text falls into pieces of plain text that together are the line.** -/
theorem pieces_repeat (depth : Nat) (h : Plain u) :
    ∃ texts : List String, Repeats (piece depth : Parser ω Fragment) (u ++ ['\n', '\n'])
      (texts.map .text) ['\n', '\n'] ∧ texts.flatMap String.toList = u := by
  -- each piece takes at least one character, so the rest of the line is shorter
  induction hn : u.length using Nat.strong_induction_on generalizing u with
  | _ n ih =>
    cases u with
    | nil =>
      obtain ⟨d, hend⟩ := lineEnd_reads (ω := ω)
      exact ⟨[], .stop (piece_refuses hend), rfl⟩
    | cons c u =>
      obtain ⟨v₁, v₂, hu, hgather⟩ := text_gathers (ω := ω) depth (h.suffix (List.suffix_cons c u))
      have hpiece := piece_of_gathers h (textEnd_decides depth h) hgather
      have hlen : v₂.length < n := by
        rw [← hn, hu, List.length_cons, List.length_append]
        omega
      have hplain : Plain v₂ := h.suffix (List.IsSuffix.trans ⟨v₁, hu.symm⟩ (List.suffix_cons c u))
      obtain ⟨texts, hrest, hconcat⟩ := ih v₂.length hlen hplain rfl
      refine ⟨String.ofList (c :: v₁) :: texts, .step hpiece ?_ hrest, ?_⟩
      · rw [hu]
        simp only [List.length_append, List.length_cons]
        omega
      · rw [List.flatMap_cons, hconcat, String.toList_ofList, hu]
        rfl

end Text

section Line

variable {ω : Type} [Listener ω] {depth : Nat} {cs rest tail : List Char}

/-- A line is its lead, its pieces and its end. -/
theorem line_of_pieces {w : List Char} {d : Datum} {a : Fragment} {as : List Fragment}
    (hpieces : Repeats (piece depth : Parser ω Fragment) ((leadOf w).2 ++ '\n' :: rest) (a :: as)
      ('\n' :: rest))
    (hend : Reads (lineEnd : Parser ω Datum) ('\n' :: rest) d tail) :
    Reads (line depth : Parser ω Line) (w ++ '\n' :: rest) ⟨(leadOf w).1, a :: as⟩ tail := by
  have hlead := lead_reads (ω := ω) (w ++ '\n' :: rest)
  rw [leadOf_append] at hlead
  exact .traced (hlead.bind (hpieces.many1.bind (hend.bind (.pure _ _))))

/-- The last line of a text, in pieces. -/
theorem lastLine_reads (depth : Nat) {w : List Char} (h : Plain w) (hne : (leadOf w).2 ≠ []) :
    ∃ texts : List String, Reads (line depth : Parser ω Line) (w ++ ['\n', '\n'])
      ⟨(leadOf w).1, texts.map .text⟩ [] ∧ texts.flatMap String.toList = (leadOf w).2 := by
  have hsuffix : (leadOf w).2 <:+ w := ⟨_, leadOf_spelled w⟩
  obtain ⟨texts, hpieces, hconcat⟩ := pieces_repeat (ω := ω) depth (h.suffix hsuffix)
  obtain ⟨d, hend⟩ := lineEnd_reads (ω := ω)
  cases texts with
  | nil => exact absurd hconcat.symm hne
  | cons s texts => exact ⟨s :: texts, line_of_pieces hpieces hend, hconcat⟩

/-- Lines with the indentation of four blanks. -/
def indentedLine (depth : Nat) : Parser ω Line := do
  let _ ← word "    "
  line depth

theorem indentation_refuses (h : Avoids isSpace cs) : Refuses (indentation : Parser ω String) cs := by
  have hblank : Avoids (· == ' ') cs := h.mono fun c hc => (Bool.or_eq_false_iff.1 hc).1
  have htab : Avoids (· == '\t') cs := h.mono fun c hc => (Bool.or_eq_false_iff.1 hc).2
  exact .traced (.orElse (word_refuses_of_avoids _ rfl hblank) (.orElse (word_refuses_of_avoids _ rfl hblank)
    (word_refuses_of_avoids _ rfl htab)))

/-- **A body is its lines**, each after four blanks. -/
theorem body_reads {l : Line} {ls : List Line} (hcs : Avoids isSpace cs)
    (h : Repeats (indentedLine depth : Parser ω Line) (' ' :: ' ' :: ' ' :: ' ' :: cs) (l :: ls) rest) :
    Reads (body depth : Parser ω (List Line)) (' ' :: ' ' :: ' ' :: ' ' :: cs) (l :: ls) rest := by
  have hstep : Reads (indentation : Parser ω String) (' ' :: ' ' :: ' ' :: ' ' :: cs) "    " cs :=
    .traced (.orElse_left (Reads.word "    " cs))
  have hsteps : Repeats (indentation : Parser ω String) (' ' :: ' ' :: ' ' :: ' ' :: cs) ["    "] cs :=
    .step hstep (by simp only [List.length_cons]; omega) (.stop (indentation_refuses hcs))
  exact .traced (hsteps.many1.peek.bind h.many1)

/-- Without indentation there is no body. -/
theorem body_refuses (h : Avoids isSpace cs) : Refuses (body depth : Parser ω (List Line)) cs :=
  .traced (.bind (.peek (.bind (indentation_refuses h))))

end Line

end Justfile.Parsing
