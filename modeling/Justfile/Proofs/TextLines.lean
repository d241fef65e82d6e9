import Mathlib
import Justfile.Text.Lines

/-!
# The lines of a text

What the lines of a text are, said without the function that cuts it: each but the last is followed by what ends it,
and a carriage return ends a line together with a line feed after it.

* `HasLines`: a text has lines.
* `hasLines_iff`: the lines of a text are those that `splitLines` gives.
* `HasLines.unbroken`: nothing in a line ends it.
* `hasLines_ended`: lines that are each ended by a line feed.
* `HasLines.append`: two texts with a line feed between them.
-/

namespace Justfile.Text

/-- No character ends a line. -/
def Unbroken (l : List Char) : Prop :=
  ∀ c ∈ l, isLineBreak c = false

/-- What ends a line before `rest`: a carriage return with its line feed, or one character that is not the first of
these two. -/
inductive LineEnd : (e rest : List Char) → Prop where
  | both (rest : List Char) : LineEnd ['\r', '\n'] rest
  | one {c : Char} {rest : List Char} (hc : isLineBreak c = true) (hone : c = '\r' → rest.head? ≠ some '\n') :
      LineEnd [c] rest

/-- The lines of a text. The last one may have no end, unless it is empty. -/
inductive HasLines : List Char → List (List Char) → Prop where
  | none : HasLines [] []
  | last {l : List Char} (hne : l ≠ []) (hl : Unbroken l) : HasLines l [l]
  | ended {l e rest : List Char} {ls : List (List Char)} (hl : Unbroken l) (he : LineEnd e rest)
      (hrest : HasLines rest ls) : HasLines (l ++ (e ++ rest)) (l :: ls)

theorem LineEnd.newline (rest : List Char) : LineEnd ['\n'] rest :=
  .one (by decide) fun h => absurd h (by decide)

variable {l line cs rest : List Char} {ls : List (List Char)}

/-- Characters that end no line go on with it. -/
theorem splitLinesFrom_append (hl : Unbroken l) (line cs : List Char) :
    splitLinesFrom line (l ++ cs) = splitLinesFrom (l.reverse ++ line) cs := by
  induction l generalizing line with
  | nil => rfl
  | cons c l ih =>
    unfold Unbroken at hl
    rw [List.forall_mem_cons] at hl
    have hr : c ≠ '\r' := by
      rintro rfl
      exact absurd hl.1 (by decide)
    rw [List.cons_append, splitLinesFrom, if_neg (by simp [hl.1]), ih hl.2, List.reverse_cons, List.append_assoc]
    · rfl
    · exact fun _ hc => absurd hc hr

/-- What ends a line ends it. -/
theorem splitLinesFrom_ended {e : List Char} (he : LineEnd e rest) (line : List Char) :
    splitLinesFrom line (e ++ rest) = line.reverse :: splitLines rest := by
  cases he with
  | both => rfl
  | one hc hone =>
    rw [List.singleton_append, splitLinesFrom, if_pos hc]
    · rfl
    · rintro cs rfl rfl
      exact hone rfl rfl

/-- The text that follows some characters of a line, without breaks in them, has the lines that it is cut into. -/
theorem hasLines_splitLinesFrom (hline : Unbroken line) (cs : List Char) :
    HasLines (line.reverse ++ cs) (splitLinesFrom line cs) := by
  have hrev : ∀ {line : List Char}, Unbroken line → Unbroken line.reverse :=
    fun h c hc => h c (List.mem_reverse.1 hc)
  fun_induction splitLinesFrom line cs with
  | case1 line h =>
    rw [List.isEmpty_iff.1 h]
    exact .none
  | case2 line h =>
    rw [List.append_nil]
    exact .last (by simpa using h) (hrev hline)
  | case3 line cs ih => exact .ended (hrev hline) (.both cs) (ih fun c hc => absurd hc List.not_mem_nil)
  | case4 line c cs hpair hc ih =>
    refine .ended (hrev hline) (.one hc ?_) (ih fun c hc => absurd hc List.not_mem_nil)
    rintro rfl hhead
    obtain ⟨tail, htail⟩ := List.head?_eq_some_iff.1 hhead
    exact hpair tail rfl htail
  | case5 line c cs hpair hc ih =>
    have hnext : Unbroken (c :: line) := List.forall_mem_cons.2 ⟨by simpa using hc, hline⟩
    have h := ih hnext
    rwa [List.reverse_cons, List.append_assoc] at h

/-- **The lines of a text are those that it is cut into.** -/
theorem hasLines_iff : HasLines cs ls ↔ splitLines cs = ls := by
  constructor
  · intro h
    induction h with
    | none => rfl
    | last hne hl =>
      rename_i l
      have hcut := splitLinesFrom_append hl [] []
      rw [List.append_nil, List.append_nil] at hcut
      rw [splitLines, hcut, splitLinesFrom, if_neg (by simpa using hne), List.reverse_reverse]
    | ended hl he _ ih =>
      rw [splitLines, splitLinesFrom_append hl, splitLinesFrom_ended he, ih, List.append_nil, List.reverse_reverse]
  · rintro rfl
    exact hasLines_splitLinesFrom (fun c hc => absurd hc List.not_mem_nil) cs

/-- Nothing in a line ends it. -/
theorem HasLines.unbroken (h : HasLines cs ls) : ∀ l ∈ ls, Unbroken l := by
  induction h with
  | none => exact fun l hl => absurd hl List.not_mem_nil
  | last _ hl => exact List.forall_mem_singleton.2 hl
  | ended hl _ _ ih => exact List.forall_mem_cons.2 ⟨hl, ih⟩

/-- **Lines that are each ended by a line feed.** -/
theorem hasLines_ended (h : ∀ l ∈ ls, Unbroken l) : HasLines (ls.flatMap (· ++ ['\n'])) ls := by
  induction ls with
  | nil => exact .none
  | cons l ls ih =>
    rw [List.forall_mem_cons] at h
    rw [List.flatMap_cons, List.append_assoc]
    exact .ended h.1 (.newline _) (ih h.2)

/-- **Two texts with a line feed between them**, the first of which does not end with a line's end, have the lines of
both. -/
theorem HasLines.append {as bs : List (List Char)} (h : HasLines cs as) (hlast : ∃ c ∈ cs.getLast?, isLineBreak c = false)
    (hrest : HasLines rest bs) : HasLines (cs ++ '\n' :: rest) (as ++ bs) := by
  induction h with
  | none =>
    obtain ⟨c, hc, -⟩ := hlast
    cases hc
  | last _ hl => exact .ended hl (.newline rest) hrest
  | ended hl he _ ih =>
    rename_i l e cs ls _
    -- otherwise the text would end with what ends this line
    have hne : cs ≠ [] := by
      rintro rfl
      obtain ⟨c, hc, hunbroken⟩ := hlast
      have hend : isLineBreak c = true := by
        cases he with
        | both =>
          have hget : (l ++ (['\r', '\n'] ++ [])).getLast? = some '\n' := by simp
          rw [hget] at hc
          cases hc
          decide
        | @one d _ hd =>
          have hget : (l ++ ([d] ++ [])).getLast? = some d := by simp
          rw [hget] at hc
          cases hc
          exact hd
      rw [hend] at hunbroken
      cases hunbroken
    have hlast' : ∃ c ∈ cs.getLast?, isLineBreak c = false := by
      rwa [List.getLast?_append_of_ne_nil _ (List.append_ne_nil_of_right_ne_nil e hne),
        List.getLast?_append_of_ne_nil _ hne] at hlast
    rw [List.append_assoc, List.append_assoc, List.cons_append]
    refine .ended hl ?_ (ih hlast')
    cases he with
    | both => exact .both _
    | one hc hone =>
      refine .one hc fun hr hhead => hone hr ?_
      rwa [List.head?_append_of_ne_nil _ hne] at hhead

end Justfile.Text
