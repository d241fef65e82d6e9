import Justfile.Proofs.Legible

/-!
# Ends of lines

A line ends with one or more line feeds, or with a comment and one line feed.

* `lineEnd_newlines`: line feeds are read as far as they go.
* `lineEnd_refuses`: no line ends before a character that is neither a line feed nor, after blanks,
  the start of a comment.
* `lineEnd_decides`: on the last line of a text, whether a line ends depends on the text alone.
-/

namespace Justfile.Parsing

open Justfile.Parsing.Parser

variable {ω : Type} [Listener ω] {cs rest : List Char}

/-- What a line feed can start with. -/
def startsNewline (c : Char) : Bool :=
  c == '\n' || c == '\r'

/-- Line ends are blanks. -/
theorem startsNewline_of_not_blank {c : Char} (h : Text.isBlank c = false) : startsNewline c = false := by
  by_contra hs
  simp only [startsNewline, Bool.not_eq_false, Bool.or_eq_true, beq_iff_eq] at hs
  rcases hs with rfl | rfl <;> cases h

theorem comment_refuses (h : Avoids (· == '#') (cs.dropWhile isSpace)) :
    Refuses (comment : Parser ω Declaration) cs :=
  .traced (.bind (.spaced (word_refuses_of_avoids _ rfl h)))

theorem newline_refuses (h : Avoids startsNewline cs) : Refuses (newline : Parser ω String) cs := by
  refine .traced (.orElse (word_refuses_of_avoids _ rfl (h.mono fun c hc => ?_))
    (word_refuses_of_avoids _ rfl (h.mono fun c hc => ?_)))
  · exact (Bool.or_eq_false_iff.1 hc).1
  · exact (Bool.or_eq_false_iff.1 hc).2

theorem lineEnd_refuses (hc : Avoids (· == '#') (cs.dropWhile isSpace)) (hn : Avoids startsNewline cs) :
    Refuses (lineEnd : Parser ω Datum) cs :=
  .traced (.orElse (.bind (comment_refuses hc)) (.map _ (.bind (newline_refuses hn))))

theorem newline_reads (cs : List Char) : Reads (newline : Parser ω String) ('\n' :: cs) "\n" cs :=
  .traced (.orElse_left (Reads.word "\n" cs))

/-- A text without the line feeds it starts with. -/
def skipNewlines (cs : List Char) : List Char :=
  cs.dropWhile (· == '\n')

theorem newlines_repeat (h : Avoids startsNewline (skipNewlines cs)) :
    ∃ ss, Repeats (newline : Parser ω String) cs ss (skipNewlines cs) := by
  induction cs with
  | nil => exact ⟨[], .stop (newline_refuses h)⟩
  | cons c cs ih =>
    by_cases hc : c = '\n'
    · subst hc
      have hskip : skipNewlines ('\n' :: cs) = skipNewlines cs := List.dropWhile_cons_of_pos rfl
      rw [hskip] at h ⊢
      obtain ⟨ss, hss⟩ := ih h
      exact ⟨"\n" :: ss, .step (newline_reads cs) (Nat.lt_succ_self _) hss⟩
    · have hskip : skipNewlines (c :: cs) = c :: cs := List.dropWhile_cons_of_neg (by simpa using hc)
      rw [hskip] at h ⊢
      exact ⟨[], .stop (newline_refuses h)⟩

/-- **Line feeds end a line**, and all of them are read. -/
theorem lineEnd_newlines (h : Avoids startsNewline (skipNewlines cs)) :
    ∃ d, Reads (lineEnd : Parser ω Datum) ('\n' :: cs) d (skipNewlines cs) := by
  obtain ⟨ss, hss⟩ := newlines_repeat (ω := ω) h
  have hall : Reads (many1 newline : Parser ω (List String)) ('\n' :: cs) ("\n" :: ss)
      (skipNewlines cs) := (newline_reads cs).bind (hss.many.bind (.pure _ _))
  have hcomment : Refuses (comment : Parser ω Declaration) ('\n' :: cs) :=
    comment_refuses (avoids_cons rfl cs)
  exact ⟨_, .traced (.orElse_right (.bind hcomment) (hall.map _))⟩

/-- Two line feeds at the end of a text are one end of a line. -/
theorem lineEnd_reads : ∃ d, Reads (lineEnd : Parser ω Datum) ['\n', '\n'] d [] :=
  lineEnd_newlines (avoids_nil _)

/-- Up to the next line feed, a comment takes all characters. -/
theorem gathers_line {v : List Char} (hv : ∀ c ∈ v, startsNewline c = false) (rest : List Char) :
    Gathers (anyChar : Parser ω Char) newline (v ++ '\n' :: rest) v ('\n' :: rest) := by
  have h : Gathers (anyChar : Parser ω Char) newline (v.flatMap (fun c => [c]) ++ '\n' :: rest) v
      ('\n' :: rest) :=
    .flatMap (newline_reads rest) v fun c hc cs =>
      ⟨newline_refuses (avoids_cons (hv c hc) cs), .satisfy rfl cs, List.cons_ne_nil _ _⟩
  rwa [List.flatMap_singleton'] at h

/-- **A comment ends a line**, together with one line feed after it. -/
theorem lineEnd_comment {c : Char} {v : List Char}
    (hsign : Reads (spaced (word "#") : Parser ω String) cs "#" (c :: (v ++ '\n' :: rest)))
    (hc : c ≠ '!') (hv : ∀ c ∈ v, startsNewline c = false) :
    ∃ d, Reads (lineEnd : Parser ω Datum) cs d rest := by
  have hfirst : Reads (satisfy (· != '!') : Parser ω Char) (c :: (v ++ '\n' :: rest)) c
      (v ++ '\n' :: rest) := by
    refine .satisfy ?_ _
    exact bne_iff_ne.2 hc
  have hcomment : Reads (comment : Parser ω Declaration) cs (.comment (String.ofList (c :: v)))
      ('\n' :: rest) :=
    .traced (hsign.bind (hfirst.bind ((gathers_line hv rest).untilEnd.bind (.pure _ _))))
  exact ⟨_, .traced (.orElse_left (hcomment.bind ((newline_reads rest).bind (.pure _ _))))⟩

/-- Characters are dropped within a line. -/
theorem dropWhile_line (ok : Char → Bool) (hok : ok '\n' = false) (u rest : List Char) :
    (u ++ '\n' :: rest).dropWhile ok = u.dropWhile ok ++ '\n' :: rest := by
  rw [List.dropWhile_append]
  split
  · rename_i hnil
    rw [List.isEmpty_iff.1 hnil, (avoids_cons hok rest).dropWhile, List.nil_append]
  · rfl

/-- **On the last line of a text, whether a line ends depends on the text alone.** -/
theorem lineEnd_decides {u : List Char} (hu : ∀ c ∈ u, startsNewline c = false) :
    Decides (lineEnd : Parser ω Datum) (u ++ ['\n', '\n']) := by
  have hsub : ∀ v : List Char, v <:+ u → ∀ c ∈ v, startsNewline c = false :=
    fun v hv c hc => hu c (hv.subset hc)
  by_cases hnil : u = []
  · obtain ⟨d, hd⟩ := lineEnd_reads (ω := ω)
    exact .inl ⟨d, [], by rw [hnil]; exact hd⟩
  have hnewline : Refuses (newline : Parser ω String) (u ++ ['\n', '\n']) := by
    obtain ⟨c, u', rfl⟩ := List.exists_cons_of_ne_nil hnil
    exact newline_refuses (avoids_cons (hu c List.mem_cons_self) _)
  have hskip := dropWhile_line isSpace rfl u ['\n']
  -- what stands after the blanks: the line feeds, a number sign, or another character
  cases hv : u.dropWhile isSpace with
  | nil =>
    have hcomment : Refuses (comment : Parser ω Declaration) (u ++ ['\n', '\n']) :=
      comment_refuses (by rw [hskip, hv]; exact avoids_cons rfl _)
    exact .inr (.traced (.orElse (.bind hcomment) (.map _ (.bind hnewline))))
  | cons x v =>
    by_cases hx : x = '#'
    · subst hx
      have hsuffix : v.dropWhile isSpace <:+ u :=
        (List.dropWhile_suffix _).trans ((List.suffix_cons _ v).trans (hv ▸ List.dropWhile_suffix _))
      have hsign : Reads (spaced (word "#") : Parser ω String) (u ++ ['\n', '\n']) "#"
          (v.dropWhile isSpace ++ ['\n', '\n']) := by
        refine (Reads.word "#" (v ++ ['\n', '\n'])).spaced ?_ (dropWhile_line _ rfl v ['\n'])
        rw [hskip, hv]
        rfl
      cases hw : v.dropWhile isSpace with
      | nil =>
        -- the first line feed is taken for the comment, the second one ends the line
        rw [hw] at hsign
        obtain ⟨d, hd⟩ := lineEnd_comment (v := []) hsign (by decide) fun c hc => by cases hc
        exact .inl ⟨d, _, hd⟩
      | cons y w =>
        rw [hw] at hsign hsuffix
        by_cases hy : y = '!'
        · subst hy
          have hcomment : Refuses (comment : Parser ω Declaration) (u ++ ['\n', '\n']) := by
            refine .traced (.bind_right hsign (.bind fun pos t => ⟨pos, t, ?_⟩))
            rfl
          exact .inr (.traced (.orElse (.bind hcomment) (.map _ (.bind hnewline))))
        · obtain ⟨d, hd⟩ := lineEnd_comment hsign hy fun c hc =>
            hsub _ hsuffix c (List.mem_cons_of_mem y hc)
          exact .inl ⟨d, _, hd⟩
    · have hcomment : Refuses (comment : Parser ω Declaration) (u ++ ['\n', '\n']) :=
        comment_refuses (by rw [hskip, hv]; exact avoids_of_ne hx _)
      exact .inr (.traced (.orElse (.bind hcomment) (.map _ (.bind hnewline))))

end Justfile.Parsing
