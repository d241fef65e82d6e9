import Justfile.Parsing.Lexeme
import Justfile.Proofs.Prepare

/-!
# Which lines are joined

A backslash at the end of a line joins it to the next one. What may stand between the backslash and the line feed is a
class of characters. The text that is read is joined with the letter `s` for that class, so a line that ends in a
backslash and blanks is not joined, and one that ends in a backslash and letters `s` is.

* `Continues filler cs rest`: a text that starts with a continuation.
* `Joins filler cs ds`: a text without its continuations, leftmost first. `Joins.unique`: there is one way to join.
* `joinContinued_joins`: texts are joined with the letter `s`.
* `Joins.not_filled`, `Joins.filled`: what is left after joining with blanks, and after joining with letters.
* `joined_lines`: when joining with blanks would give the same, and when nothing is joined.

Whether two ways to join agree can be seen from the backslashes alone: each continuation has one, and the rest of it has
none, so continuations do not overlap, and backslashes can be counted.
-/

namespace Justfile.Parsing

variable {filler : Char → Bool} {cs ds rest : List Char}

/-- The text `cs` starts with a continuation, and `rest` follows it. A continuation is a backslash, characters of the
class, a line feed, and all blanks after it. -/
inductive Continues (filler : Char → Bool) : List Char → List Char → Prop
  | mk {gap after : List Char} (hgap : ∀ c ∈ gap, filler c = true) :
      Continues filler ('\\' :: (gap ++ '\n' :: after)) (after.dropWhile Text.isBlank)

/-- The text `ds` is `cs` without its continuations, leftmost first and none inside another. -/
inductive Joins (filler : Char → Bool) : List Char → List Char → Prop
  | nil : Joins filler [] []
  | keep {c : Char} {cs ds : List Char} (h : ∀ rest, ¬Continues filler (c :: cs) rest) (hcs : Joins filler cs ds) :
      Joins filler (c :: cs) (c :: ds)
  | drop {cs rest ds : List Char} (h : Continues filler cs rest) (hrest : Joins filler rest ds) :
      Joins filler cs ds

/-- A continuation is found after the characters of the class. -/
theorem continues_iff (hfiller : filler '\n' = false) : Continues filler ('\\' :: cs) rest ↔
    ∃ after, cs.dropWhile filler = '\n' :: after ∧ rest = after.dropWhile Text.isBlank := by
  constructor
  · intro h
    cases h with
    | mk hgap =>
      refine ⟨_, ?_, rfl⟩
      rw [List.dropWhile_append_of_pos hgap, List.dropWhile_cons_of_neg (by simp [hfiller])]
  · rintro ⟨after, hafter, rfl⟩
    have hcs := List.takeWhile_append_dropWhile (p := filler) (l := cs)
    rw [hafter] at hcs
    rw [← hcs]
    exact .mk fun c hc => List.mem_takeWhile_imp hc

theorem Continues.head (h : Continues filler cs rest) : ∃ tail, cs = '\\' :: tail ∧ rest <:+ tail := by
  cases h with
  | @mk gap after hgap =>
    refine ⟨_, rfl, (List.dropWhile_suffix _).trans ?_⟩
    exact (List.suffix_cons '\n' after).trans (List.suffix_append gap _)

theorem Continues.first {c : Char} (h : Continues filler ('\\' :: c :: cs) rest) : filler c = true ∨ c = '\n' := by
  obtain ⟨tail, htail⟩ : ∃ tail, tail = '\\' :: c :: cs := ⟨_, rfl⟩
  rw [← htail] at h
  cases h with
  | @mk gap after hgap =>
    cases gap with
    | nil => exact .inr (List.cons.inj (List.cons.inj htail).2).1.symm
    | cons d gap =>
      rw [← (List.cons.inj (List.cons.inj htail).2).1]
      exact .inl (hgap d List.mem_cons_self)

/-- The first backslash of a continuation is its only one. -/
theorem Continues.clear (hfiller : filler '\\' = false) (h : Continues filler cs rest) :
    ∃ clear, '\\' ∉ clear ∧ cs = '\\' :: (clear ++ rest) := by
  cases h with
  | @mk gap after hgap =>
    refine ⟨gap ++ '\n' :: after.takeWhile Text.isBlank, ?_, ?_⟩
    · rw [List.mem_append, List.mem_cons]
      rintro (hmem | hmem | hmem)
      · rw [hgap _ hmem] at hfiller
        cases hfiller
      · cases hmem
      · exact absurd (List.mem_takeWhile_imp hmem) (by decide)
    · rw [List.append_assoc, List.cons_append, List.takeWhile_append_dropWhile]

theorem Continues.unique (hfiller : filler '\n' = false) {rest' : List Char} (h : Continues filler cs rest)
    (h' : Continues filler cs rest') : rest = rest' := by
  obtain ⟨tail, rfl, -⟩ := h.head
  obtain ⟨after, hafter, rfl⟩ := (continues_iff hfiller).1 h
  obtain ⟨after', hafter', rfl⟩ := (continues_iff hfiller).1 h'
  rw [hafter] at hafter'
  cases hafter'
  rfl

/-- **There is one way to join the lines of a text.** -/
theorem Joins.unique (hfiller : filler '\n' = false) {ds' : List Char} (h : Joins filler cs ds)
    (h' : Joins filler cs ds') : ds = ds' := by
  induction h generalizing ds' with
  | nil =>
    cases h' with
    | nil => rfl
    | drop h _ => obtain ⟨tail, hnil, -⟩ := h.head; cases hnil
  | keep hno _ ih =>
    cases h' with
    | keep _ hcs => rw [ih hcs]
    | drop h _ => exact absurd h (hno _)
  | drop hcont _ ih =>
    cases h' with
    | nil => obtain ⟨tail, hnil, -⟩ := hcont.head; cases hnil
    | keep hno _ => exact absurd hcont (hno _)
    | drop hcont' hrest' =>
      rw [hcont.unique hfiller hcont'] at ih
      exact ih hrest'

/-- What is looked for after a backslash is a continuation with the letter `s`. -/
theorem continuation?_eq_some {n : Nat} (h : continuation? cs = some n) :
    Continues (· == 's') ('\\' :: cs) (cs.drop n) := by
  unfold continuation? at h
  simp only [drop_length_takeWhile] at h
  split at h
  · rename_i after hafter
    cases h
    refine (continues_iff rfl).2 ⟨after, hafter, ?_⟩
    -- the letters and the line feed are dropped first, and then the blanks
    rw [Nat.add_assoc, ← List.drop_drop, drop_length_takeWhile, hafter, Nat.add_comm 1, List.drop_succ_cons,
      drop_length_takeWhile]
  · cases h

theorem not_continues_of_continuation? (h : continuation? cs = none) (rest : List Char) :
    ¬Continues (· == 's') ('\\' :: cs) rest := by
  intro hcont
  obtain ⟨after, hafter, -⟩ := (continues_iff rfl).1 hcont
  unfold continuation? at h
  simp only [drop_length_takeWhile, hafter] at h
  cases h

theorem joinFrom_eq_drop (n : Nat) (cs : List Char) : joinFrom n cs = joinFrom 0 (cs.drop n) := by
  induction n generalizing cs with
  | zero => rfl
  | succ n ih =>
    cases cs with
    | nil => rfl
    | cons c cs => exact ih cs

/-- **Lines are joined where letters `s` stand between the backslash and the line feed.** -/
theorem joinContinued_joins (cs : List Char) : Joins (· == 's') cs (joinContinued cs) := by
  unfold joinContinued
  -- a continuation is longer than one character, so the induction is on the length of the text
  induction hn : cs.length using Nat.strong_induction_on generalizing cs with
  | _ n ih =>
    cases cs with
    | nil => exact .nil
    | cons c cs =>
      have hrest : Joins (· == 's') cs (joinFrom 0 cs) := ih cs.length (by rw [← hn]; simp) cs rfl
      unfold joinFrom
      by_cases hc : c = '\\'
      · subst hc
        rw [if_pos rfl]
        cases hcont : continuation? cs with
        | none => exact .keep (not_continues_of_continuation? hcont) hrest
        | some k =>
          have hlen : (cs.drop k).length < n := by
            rw [← hn, List.length_drop, List.length_cons]
            omega
          show Joins _ _ (joinFrom k cs)
          rw [joinFrom_eq_drop]
          exact .drop (continuation?_eq_some hcont) (ih _ hlen _ rfl)
      · rw [if_neg hc]
        refine .keep (fun rest hcont => ?_) hrest
        obtain ⟨tail, htail, -⟩ := hcont.head
        exact hc (List.cons.inj htail).1

/-- Characters before the first backslash stay. -/
theorem Joins.of_append {keep : List Char} (hkeep : '\\' ∉ keep) (h : Joins filler (keep ++ cs) ds) :
    ∃ es, ds = keep ++ es ∧ Joins filler cs es := by
  induction keep generalizing ds with
  | nil => exact ⟨ds, rfl, h⟩
  | cons c keep ih =>
    rw [List.mem_cons, not_or] at hkeep
    rw [List.cons_append] at h
    cases h with
    | keep _ hcs =>
      obtain ⟨es, rfl, hes⟩ := ih hkeep.2 hcs
      exact ⟨es, rfl, hes⟩
    | drop hcont _ =>
      obtain ⟨tail, htail, -⟩ := hcont.head
      exact absurd (List.cons.inj htail).1.symm hkeep.1

/-- No blank follows where a continuation was. -/
theorem Joins.avoids_blank (hcs : Avoids Text.isBlank cs) (h : Joins filler cs ds) : Avoids Text.isBlank ds := by
  induction h with
  | nil => exact avoids_nil _
  | keep _ _ _ => exact avoids_cons (hcs _ rfl) _
  | drop hcont _ ih =>
    cases hcont with
    | mk _ => exact ih (avoids_dropWhile _ _)

/-- Blanks that are left after joining stood there before. -/
theorem Joins.blanks_stay {blanks es : List Char} (hblanks : ∀ c ∈ blanks, Text.isBlank c = true)
    (h : Joins filler cs (blanks ++ es)) : ∃ more, cs = blanks ++ more := by
  induction blanks generalizing cs with
  | nil => exact ⟨cs, rfl⟩
  | cons c blanks ih =>
    rw [List.forall_mem_cons] at hblanks
    rw [List.cons_append] at h
    cases h with
    | keep _ hcs =>
      obtain ⟨more, rfl⟩ := ih hblanks.2 hcs
      exact ⟨more, rfl⟩
    | drop hcont hrest =>
      cases hcont with
      | mk _ =>
        have hhead := hrest.avoids_blank (avoids_dropWhile _ _) c rfl
        rw [hblanks.1] at hhead
        cases hhead

/-- The text has a backslash with only characters of the class, at least one, between it and a line feed. -/
def Filled (filler : Char → Bool) (cs : List Char) : Prop :=
  ∃ gap after, gap ≠ [] ∧ (∀ c ∈ gap, filler c = true) ∧ '\\' :: (gap ++ '\n' :: after) <:+ cs

theorem Filled.of_suffix (h : Filled filler ds) (hds : ds <:+ cs) : Filled filler cs := by
  obtain ⟨gap, after, hne, hgap, hsuffix⟩ := h
  exact ⟨gap, after, hne, hgap, hsuffix.trans hds⟩

theorem Filled.cons_iff {c : Char} : Filled filler (c :: cs) ↔
    (∃ gap after, gap ≠ [] ∧ (∀ c ∈ gap, filler c = true) ∧ c = '\\' ∧ cs = gap ++ '\n' :: after) ∨
      Filled filler cs := by
  constructor
  · rintro ⟨gap, after, hne, hgap, hsuffix⟩
    rcases List.suffix_cons_iff.1 hsuffix with heq | hsuffix
    · obtain ⟨rfl, rfl⟩ := List.cons.inj heq
      exact .inl ⟨gap, after, hne, hgap, rfl, rfl⟩
    · exact .inr ⟨gap, after, hne, hgap, hsuffix⟩
  · rintro (⟨gap, after, hne, hgap, rfl, rfl⟩ | h)
    · exact ⟨gap, after, hne, hgap, List.suffix_rfl⟩
    · exact h.of_suffix (List.suffix_cons c cs)

theorem Filled.of_append {clear : List Char} (hclear : '\\' ∉ clear) (h : Filled filler (clear ++ cs)) :
    Filled filler cs := by
  induction clear with
  | nil => exact h
  | cons c clear ih =>
    rw [List.mem_cons, not_or] at hclear
    rcases Filled.cons_iff.1 h with ⟨_, _, _, _, rfl, _⟩ | h
    · exact absurd rfl hclear.1
    · exact ih hclear.2 h

/-- A backslash right before the line feed continues a line whatever the class is. -/
theorem Continues.of_not_filled {other : Char → Bool} (h : Continues filler cs rest) (hno : ¬Filled filler cs) :
    Continues other cs rest := by
  cases h with
  | @mk gap after hgap =>
    have hnil : gap = [] := by
      by_contra hne
      exact hno ⟨gap, after, hne, hgap, List.suffix_rfl⟩
    subst hnil
    exact .mk fun _ hc => absurd hc (List.not_mem_nil)

/-- Where neither class fills a line end, joining with the one and with the other is the same. -/
theorem Joins.of_not_filled {other : Char → Bool} (h : Joins filler cs ds) (hno : ¬Filled filler cs)
    (hno' : ¬Filled other cs) : Joins other cs ds := by
  induction h with
  | nil => exact .nil
  | @keep c cs ds hkeep _ ih =>
    refine .keep (fun rest hcont => hkeep rest (hcont.of_not_filled hno')) (ih ?_ ?_)
    · exact fun h => hno (h.of_suffix (List.suffix_cons c cs))
    · exact fun h => hno' (h.of_suffix (List.suffix_cons c cs))
  | @drop cs rest ds hcont _ ih =>
    obtain ⟨tail, rfl, hsuffix⟩ := hcont.head
    have hrest : rest <:+ '\\' :: tail := hsuffix.trans (List.suffix_cons _ _)
    exact .drop (hcont.of_not_filled hno) (ih (fun h => hno (h.of_suffix hrest)) fun h => hno' (h.of_suffix hrest))

/-- **After joining with blanks no line ends in a backslash and blanks.** -/
theorem Joins.not_filled (h : Joins isSpace cs ds) : ¬Filled isSpace ds := by
  induction h with
  | nil =>
    rintro ⟨gap, after, -, -, hsuffix⟩
    exact absurd (List.suffix_nil.1 hsuffix) (List.cons_ne_nil _ _)
  | @keep c cs ds hno hcs ih =>
    intro hfilled
    rcases Filled.cons_iff.1 hfilled with ⟨gap, after, -, hgap, rfl, rfl⟩ | hfilled
    · -- what is left was there before, so the continuation was there before
      have hblank : ∀ c ∈ gap ++ ['\n'], Text.isBlank c = true := by
        intro c hc
        rcases List.mem_append.1 hc with hc | hc
        · exact isBlank_of_isSpace (hgap c hc)
        · rw [List.mem_singleton.1 hc]
          rfl
      rw [List.append_cons] at hcs
      obtain ⟨more, rfl⟩ := hcs.blanks_stay hblank
      rw [← List.append_cons] at hno
      exact hno _ (.mk hgap)
    · exact ih hfilled
  | drop _ _ ih => exact ih

/-- **Joining with letters leaves a backslash and blanks at the end of a line as they are.** -/
theorem Joins.filled (h : Joins (· == 's') cs ds) (hcs : Filled isSpace cs) : Filled isSpace ds := by
  induction h with
  | nil => exact hcs
  | @keep c cs ds _ hjoins ih =>
    rcases Filled.cons_iff.1 hcs with ⟨gap, after, hne, hgap, rfl, rfl⟩ | hcs
    · have hkeep : '\\' ∉ gap ++ ['\n'] := by
        intro hmem
        rcases List.mem_append.1 hmem with hmem | hmem
        · exact absurd (hgap _ hmem) (by decide)
        · exact absurd hmem (by decide)
      rw [List.append_cons] at hjoins
      obtain ⟨es, rfl, -⟩ := hjoins.of_append hkeep
      rw [← List.append_cons]
      exact ⟨gap, es, hne, hgap, List.suffix_rfl⟩
    · exact (ih hcs).of_suffix (List.suffix_cons c ds)
  | @drop cs rest ds hcont _ ih =>
    refine ih ?_
    obtain ⟨clear, hclear, rfl⟩ := hcont.clear rfl
    rcases Filled.cons_iff.1 hcs with ⟨gap, after, hne, hgap, -, heq⟩ | hcs
    · -- a letter or the line feed follows the backslash, and a blank does
      obtain ⟨c, gap, rfl⟩ := List.exists_cons_of_ne_nil hne
      have hc : isSpace c = true := hgap c List.mem_cons_self
      rw [heq, List.cons_append] at hcont
      rcases hcont.first with hs | rfl
      · rw [beq_iff_eq.1 hs] at hc
        cases hc
      · cases hc
    · exact hcs.of_append hclear

theorem Joins.sublist (h : Joins filler cs ds) : ds.Sublist cs := by
  induction h with
  | nil => exact .slnil
  | keep _ _ ih => exact ih.cons_cons _
  | drop hcont _ ih =>
    obtain ⟨tail, rfl, hrest⟩ := hcont.head
    exact (ih.trans hrest.sublist).cons _

/-- A backslash is missing where a continuation was. -/
theorem Joins.count_lt {tail : List Char} (h : Joins filler cs ds) (htail : tail <:+ cs)
    (hcont : Continues filler tail rest) : ds.count '\\' < cs.count '\\' := by
  induction h with
  | nil =>
    obtain ⟨more, rfl, -⟩ := hcont.head
    exact absurd (List.suffix_nil.1 htail) (List.cons_ne_nil _ _)
  | keep hno _ ih =>
    rcases List.suffix_cons_iff.1 htail with rfl | htail
    · exact absurd hcont (hno _)
    · have hlt := ih htail
      rw [List.count_cons, List.count_cons]
      omega
  | drop hfirst hrest _ =>
    obtain ⟨more, rfl, hmore⟩ := hfirst.head
    have hle := (hrest.sublist.trans hmore.sublist).count_le '\\'
    rw [List.count_cons_self]
    omega

/-- Where blanks fill no line end, joining with letters leaves no more backslashes than joining with blanks, and fewer
if letters fill one. -/
theorem Joins.count_le_of_not_filled {es : List Char} (h : Joins (· == 's') cs ds) (h' : Joins isSpace cs es)
    (hno : ¬Filled isSpace cs) : ds.count '\\' ≤ es.count '\\' ∧
      (Filled (· == 's') cs → ds.count '\\' < es.count '\\') := by
  induction h generalizing es with
  | nil =>
    refine ⟨Nat.zero_le _, ?_⟩
    rintro ⟨gap, after, -, -, hsuffix⟩
    exact absurd (List.suffix_nil.1 hsuffix) (List.cons_ne_nil _ _)
  | @keep c cs ds hkeep _ ih =>
    have hno' : ¬Filled isSpace cs := fun h => hno (h.of_suffix (List.suffix_cons c cs))
    cases h' with
    | drop hcont _ => exact absurd (hcont.of_not_filled hno) (hkeep _)
    | keep _ hes =>
      obtain ⟨hle, hlt⟩ := ih hes hno'
      rw [List.count_cons, List.count_cons]
      refine ⟨by omega, fun hfilled => ?_⟩
      rcases Filled.cons_iff.1 hfilled with ⟨gap, after, -, hgap, rfl, rfl⟩ | hfilled
      · exact absurd (.mk hgap) (hkeep _)
      · have := hlt hfilled
        omega
  | @drop cs rest ds hcont hrest ih =>
    obtain ⟨clear, hclear, rfl⟩ := hcont.clear rfl
    have hno' : ¬Filled isSpace rest := by
      refine fun h => hno (h.of_suffix ?_)
      exact (List.suffix_append clear rest).trans (List.suffix_cons _ _)
    cases h' with
    | keep _ hes =>
      obtain ⟨more, rfl, hmore⟩ := hes.of_append hclear
      have hle := (ih hmore hno').1
      rw [List.count_cons_self, List.count_append]
      exact ⟨by omega, fun _ => by omega⟩
    | drop hcont' hes =>
      -- the line feed follows the backslash, so no letter does
      have heq := (hcont'.of_not_filled hno).unique rfl hcont
      subst heq
      obtain ⟨hle, hlt⟩ := ih hes hno'
      refine ⟨hle, fun hfilled => hlt ?_⟩
      rcases Filled.cons_iff.1 hfilled with ⟨gap, after, hne, hgap, -, heq⟩ | hfilled
      · obtain ⟨c, gap, rfl⟩ := List.exists_cons_of_ne_nil hne
        have hc : c = 's' := beq_iff_eq.1 (hgap c List.mem_cons_self)
        rw [heq, List.cons_append, hc] at hcont'
        rcases hcont'.first with hs | hs <;> cases hs
      · exact hfilled.of_append hclear

/-- **Joining with letters and joining with blanks agree** just where neither fills a line end. -/
theorem joins_isSpace_iff (h : Joins (· == 's') cs ds) :
    Joins isSpace cs ds ↔ ¬Filled isSpace cs ∧ ¬Filled (· == 's') cs := by
  constructor
  · intro h'
    have hno : ¬Filled isSpace cs := fun hfilled => h'.not_filled (h.filled hfilled)
    refine ⟨hno, fun hfilled => ?_⟩
    exact Nat.lt_irrefl _ ((h.count_le_of_not_filled h' hno).2 hfilled)
  · rintro ⟨hno, hno'⟩
    exact h.of_not_filled hno' hno

theorem count_strip (cs : List Char) : (Text.strip cs).count '\\' = cs.count '\\' := by
  have hdrop (ds : List Char) : (ds.dropWhile Text.isBlank).count '\\' = ds.count '\\' := by
    have hsplit := congrArg (List.count '\\') (List.takeWhile_append_dropWhile (p := Text.isBlank) (l := ds))
    have hnot : '\\' ∉ ds.takeWhile Text.isBlank := fun h => absurd (List.mem_takeWhile_imp h) (by decide)
    rw [List.count_append, List.count_eq_zero.2 hnot] at hsplit
    omega
  unfold Text.strip Text.stripRight
  rw [List.count_reverse, hdrop, List.count_reverse, hdrop]

/-- **Which lines of a text are joined.** A text is read without its continuations, leftmost first, where letters `s`
may stand between a backslash and the line feed; then blanks at its ends are removed and it is ended by two line feeds.
That is the text without its continuations with blanks in that place just if no line ends in a backslash and at least
one blank, or in a backslash and at least one letter `s`. Only its ends change just if no line ends in a backslash or in
a backslash and letters `s`. -/
theorem joined_lines (cs : List Char) :
    (∀ text, prepare cs = text ↔ ∃ ds, Joins (· == 's') cs ds ∧ text = Text.strip ds ++ ['\n', '\n']) ∧
    (Joins isSpace cs (joinContinued cs) ↔ ¬Filled isSpace cs ∧ ¬Filled (· == 's') cs) ∧
    (prepare cs = Text.strip cs ++ ['\n', '\n'] ↔
      ∀ tail rest, tail <:+ cs → ¬Continues (· == 's') tail rest) := by
  have hjoins := joinContinued_joins cs
  refine ⟨fun text => ⟨?_, ?_⟩, joins_isSpace_iff hjoins, fun h tail rest htail hcont => ?_, fun h => ?_⟩
  · rintro rfl
    exact ⟨_, hjoins, rfl⟩
  · rintro ⟨ds, hds, rfl⟩
    rw [hds.unique rfl hjoins]
    rfl
  · -- stripping removes no backslash, so the continuation would be missed
    have hcount := congrArg (List.count '\\') (List.append_cancel_right h)
    rw [count_strip, count_strip] at hcount
    have hlt := hjoins.count_lt htail hcont
    omega
  · have huncontinued : Uncontinued cs := by
      intro tail htail
      cases hcont : continuation? tail with
      | none => rfl
      | some n => exact absurd (continuation?_eq_some hcont) (h _ _ htail)
    unfold prepare joinContinued
    rw [joinFrom_uncontinued huncontinued]

example : prepare ['a', '\\', ' ', '\n', ' ', 'b'] = ['a', '\\', ' ', '\n', ' ', 'b', '\n', '\n'] := by decide

example : prepare ['a', '\\', 's', '\n', ' ', 'b'] = ['a', 'b', '\n', '\n'] := by decide

end Justfile.Parsing
