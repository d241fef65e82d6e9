import Justfile.Parsing.Continuation
import Justfile.Proofs.Reads

/-!
# Preparing a text

Before a text is read, continued lines are joined, blanks at the ends are removed, and two line
feeds are put at the end.

* `Uncontinued`: no backslash of the text continues a line. Such a text is not changed by joining.
* `Sealed`: every backslash of a piece of text is followed, inside the piece, by what keeps it from
  continuing a line. Sealed pieces may stand one after the other (`Sealed.append`).
* `prepare_uncontinued`: only the blanks at the end of an uncontinued text are replaced.
* `prepare_fill`: what is put into a text without backslashes is put into the prepared text.
-/

namespace Justfile.Parsing

variable {cs ds : List Char}

/-- No backslash of the text continues a line. -/
def Uncontinued (cs : List Char) : Prop :=
  ∀ tail, '\\' :: tail <:+ cs → continuation? tail = none

theorem joinFrom_uncontinued (h : Uncontinued cs) : joinFrom 0 cs = cs := by
  induction cs with
  | nil => rfl
  | cons c cs ih =>
    have hcs : joinFrom 0 cs = cs := ih fun tail ht => h tail (ht.trans (List.suffix_cons c cs))
    unfold joinFrom
    by_cases hc : c = '\\'
    · subst hc
      rw [if_pos rfl, h cs (List.suffix_refl _)]
      simp only [hcs]
    · rw [if_neg hc, hcs]

theorem drop_length_takeWhile (ok : Char → Bool) (cs : List Char) :
    cs.drop (cs.takeWhile ok).length = cs.dropWhile ok := by
  conv_lhs => arg 2; rw [← List.takeWhile_append_dropWhile (p := ok) (l := cs)]
  exact List.drop_left

/-- A backslash continues a line only if a line feed stands after the letters that follow it. -/
theorem continuation?_eq_none (h : Avoids (· == '\n') (cs.dropWhile (· == 's'))) :
    continuation? cs = none := by
  unfold continuation?
  simp only [drop_length_takeWhile]
  split
  · rename_i rest hrest
    rw [hrest] at h
    exact absurd (h '\n' rfl) (by decide)
  · rfl

theorem uncontinued_of_line (h : '\n' ∉ cs) : Uncontinued cs := by
  intro tail ht
  refine continuation?_eq_none fun c hc => beq_false_of_ne ?_
  rintro rfl
  exact h (ht.subset (List.mem_cons_of_mem _ ((List.dropWhile_suffix _).subset (List.mem_of_mem_head? hc))))

/-- Every backslash is followed, after letters `s`, by a character that is no line feed. -/
def Sealed (cs : List Char) : Prop :=
  ∀ tail, '\\' :: tail <:+ cs → ∃ c rest, tail.dropWhile (· == 's') = c :: rest ∧ c ≠ '\n'

theorem Sealed.uncontinued (h : Sealed cs) : Uncontinued cs := by
  intro tail ht
  obtain ⟨c, rest, hc, hne⟩ := h tail ht
  refine continuation?_eq_none ?_
  rw [hc]
  exact avoids_of_ne hne rest

theorem sealed_of_not_mem (h : '\\' ∉ cs) : Sealed cs :=
  fun _ ht => absurd (ht.subset List.mem_cons_self) h

theorem Sealed.append (hcs : Sealed cs) (hds : Sealed ds) : Sealed (cs ++ ds) := by
  rintro tail ⟨init, h⟩
  rcases List.append_eq_append_iff.1 h with ⟨as, rfl, htail⟩ | ⟨bs, -, rfl⟩
  · cases as with
    | nil => exact hds tail ⟨[], htail⟩
    | cons a as =>
      -- the backslash stands in the first piece, and so does what follows it
      obtain ⟨rfl, heq⟩ := List.cons.inj htail
      obtain ⟨c, rest, hc, hne⟩ := hcs as ⟨init, rfl⟩
      refine ⟨c, rest ++ ds, ?_, hne⟩
      rw [heq, List.append_eq, List.dropWhile_append, hc]
      rfl
  · exact hds tail ⟨bs, rfl⟩

/-- A piece on one line that ends in another character than a letter `s` or a backslash. -/
theorem sealed_of_last {d : Char} (hline : '\n' ∉ cs) (hs : d ≠ 's') (hd : d ≠ '\\') (hn : d ≠ '\n') :
    Sealed (cs ++ [d]) := by
  rintro tail ⟨init, h⟩
  -- the backslash is not the last character, so what follows it ends with the last one too
  have hinner : ∃ inner, tail = inner ++ [d] ∧ '\n' ∉ inner := by
    rcases List.append_eq_append_iff.1 h with ⟨as, rfl, htail⟩ | ⟨bs, -, htail⟩
    · cases as with
      | nil => exact absurd (List.cons.inj htail).1.symm hd
      | cons a as =>
        obtain ⟨rfl, heq⟩ := List.cons.inj htail
        exact ⟨as, heq, fun hn => hline (List.mem_append_right _ (List.mem_cons_of_mem _ hn))⟩
    · cases bs with
      | nil => exact absurd (List.cons.inj htail).1 hd
      | cons b bs => exact absurd (List.cons.inj htail).2.symm (by simp)
  obtain ⟨inner, rfl, hinner⟩ := hinner
  rw [List.dropWhile_append]
  split
  · exact ⟨d, [], (avoids_of_ne hs []).dropWhile, hn⟩
  · rename_i hne
    obtain ⟨x, xs, hx⟩ := List.exists_cons_of_ne_nil (l := inner.dropWhile (· == 's'))
      fun h => hne (by rw [h]; rfl)
    refine ⟨x, xs ++ [d], by rw [hx]; rfl, ?_⟩
    rintro rfl
    exact hinner ((List.dropWhile_suffix _).subset (hx ▸ List.mem_cons_self))

/-- **Preparing an uncontinued text** replaces the blanks at its end by two line feeds. -/
theorem prepare_uncontinued (tail : List Char) (h : Uncontinued (cs ++ tail)) (hfirst : Avoids Text.isBlank cs)
    (hlast : Avoids Text.isBlank cs.reverse) (htail : ∀ c ∈ tail, Text.isBlank c = true) :
    prepare (cs ++ tail) = cs ++ ['\n', '\n'] := by
  have hright : Text.stripRight (cs ++ tail) = cs := by
    have hrev : ∀ c ∈ tail.reverse, Text.isBlank c = true := fun c hc => htail c (List.mem_reverse.1 hc)
    unfold Text.stripRight
    rw [List.reverse_append, List.dropWhile_append_of_pos hrev, hlast.dropWhile, List.reverse_reverse]
  have hleft : Text.stripRight ((cs ++ tail).dropWhile Text.isBlank) = cs := by
    cases cs with
    | nil =>
      rw [List.nil_append, List.dropWhile_eq_nil_iff.2 htail]
      rfl
    | cons c cs => rw [List.cons_append, (avoids_cons (hfirst c rfl) _).dropWhile]; exact hright
  unfold prepare joinContinued Text.strip
  rw [joinFrom_uncontinued h, hleft]

section Split

theorem isBlank_of_isSpace {c : Char} (h : isSpace c = true) : Text.isBlank c = true := by
  simp only [isSpace, Bool.or_eq_true, beq_iff_eq] at h
  rcases h with rfl | rfl <;> rfl

variable {text front back q filling : List Char}

/-- Every text is blanks, the text without blanks at its ends, and blanks. -/
theorem strip_split (text : List Char) : ∃ lead tail, text = lead ++ (Text.strip text ++ tail) ∧
    (∀ d ∈ lead, Text.isBlank d = true) ∧ (∀ d ∈ tail, Text.isBlank d = true) ∧ Avoids Text.isBlank (Text.strip text) ∧
      Avoids Text.isBlank (Text.strip text).reverse := by
  let inner := text.dropWhile Text.isBlank
  have hlast : inner.reverse.takeWhile Text.isBlank ++ (Text.stripRight inner).reverse = inner.reverse := by
    unfold Text.stripRight
    rw [List.reverse_reverse, List.takeWhile_append_dropWhile]
  have hinner : inner = Text.strip text ++ (inner.reverse.takeWhile Text.isBlank).reverse := by
    rw [← List.reverse_inj, List.reverse_append, List.reverse_reverse]
    exact hlast.symm
  refine ⟨text.takeWhile Text.isBlank, (inner.reverse.takeWhile Text.isBlank).reverse, ?_, ?_, ?_, ?_, ?_⟩
  · rw [← hinner]
    exact (List.takeWhile_append_dropWhile ..).symm
  · exact fun d hd => List.mem_takeWhile_imp hd
  · exact fun d hd => List.mem_takeWhile_imp (List.mem_reverse.1 hd)
  · intro d hd
    have hfirst : inner.head? = some d := by
      rw [hinner, List.head?_append, hd]
      rfl
    exact avoids_dropWhile _ _ d hfirst
  · show Avoids Text.isBlank (Text.stripRight inner).reverse
    unfold Text.stripRight
    rw [List.reverse_reverse]
    exact avoids_dropWhile _ _

theorem prepare_plain (h : '\\' ∉ text) : prepare text = Text.strip text ++ ['\n', '\n'] := by
  unfold prepare joinContinued
  rw [joinFrom_uncontinued (sealed_of_not_mem h).uncontinued]

/-- Blanks at the start of a text are dropped. -/
theorem prepare_lead {lead : List Char} (hlead : ∀ d ∈ lead, Text.isBlank d = true) (h : '\\' ∉ lead ++ text) :
    prepare (lead ++ text) = prepare text := by
  rw [prepare_plain h, prepare_plain fun hmem => h (List.mem_append_right _ hmem)]
  unfold Text.strip
  rw [List.dropWhile_append_of_pos hlead]

/-- Where the prepared text is split, the text can be split. -/
theorem exists_split (hplain : '\\' ∉ text) {A : List Char} (hA : A ≠ [])
    (h : prepare text = A ++ (q ++ ['\n', '\n'])) :
    ∃ front back, text = front ++ back ∧ front.dropWhile Text.isBlank = A := by
  obtain ⟨lead, tail, htext, hlead, -, hfirst, -⟩ := strip_split text
  rw [prepare_plain hplain, ← List.append_assoc] at h
  have hstrip := List.append_cancel_right h
  rw [hstrip] at htext hfirst
  refine ⟨lead ++ A, q ++ tail, ?_, ?_⟩
  · rw [htext]
    simp
  · obtain ⟨d, A, rfl⟩ := List.exists_cons_of_ne_nil hA
    rw [List.dropWhile_append_of_pos hlead]
    exact (avoids_cons (hfirst d rfl) A).dropWhile

/-- **What is put into a text is put into the prepared text.** -/
theorem prepare_fill (hplain : '\\' ∉ front ++ back) (hfilling : '\\' ∉ filling)
    (h : prepare (front ++ back) = front.dropWhile Text.isBlank ++ (q ++ ['\n', '\n']))
    (hfront : front.dropWhile Text.isBlank ≠ []) (hq : q ≠ []) :
    prepare (front ++ filling ++ back) = front.dropWhile Text.isBlank ++ (filling ++ (q ++ ['\n', '\n'])) := by
  obtain ⟨lead, tail, htext, hlead, htail, hfirst, hlast⟩ := strip_split (front ++ back)
  rw [prepare_plain hplain, ← List.append_assoc] at h
  have hstrip := List.append_cancel_right h
  rw [hstrip] at htext hfirst hlast
  have hlead' : ∀ d ∈ front.takeWhile Text.isBlank, Text.isBlank d = true := fun d hd => List.mem_takeWhile_imp hd
  have hparts := List.takeWhile_append_dropWhile (p := Text.isBlank) (l := front)
  generalize front.takeWhile Text.isBlank = lead' at *
  generalize front.dropWhile Text.isBlank = A at *
  subst hparts
  obtain ⟨d, A, rfl⟩ := List.exists_cons_of_ne_nil hfront
  have hd : Text.isBlank d = false := hfirst d rfl
  -- both splits agree on what comes after the place
  have hback : back = q ++ tail := by
    have hdrop := congrArg (List.dropWhile Text.isBlank) htext
    simp only [List.append_assoc, List.cons_append] at hdrop
    rw [List.dropWhile_append_of_pos hlead', List.dropWhile_append_of_pos hlead, (avoids_cons hd _).dropWhile,
      (avoids_cons hd _).dropWhile] at hdrop
    exact List.append_cancel_left (List.cons.inj hdrop).2
  subst hback
  have hparts : lead' ++ d :: A ++ filling ++ (q ++ tail) = lead' ++ (((d :: A) ++ (filling ++ q)) ++ tail) := by simp
  have hplain' : '\\' ∉ lead' ++ (((d :: A) ++ (filling ++ q)) ++ tail) := by
    simp only [List.mem_append] at hplain hfilling ⊢
    tauto
  have hlast' : Avoids Text.isBlank ((d :: A) ++ (filling ++ q)).reverse := by
    obtain ⟨e, q', hq'⟩ := List.exists_cons_of_ne_nil (fun hnil => hq (List.reverse_eq_nil_iff.1 hnil))
    rw [List.reverse_append, hq'] at hlast
    rw [List.reverse_append, List.reverse_append, hq']
    exact avoids_cons (hlast e rfl) _
  have hfirst' : Avoids Text.isBlank ((d :: A) ++ (filling ++ q)) := avoids_cons hd _
  rw [hparts, prepare_lead hlead' hplain', prepare_uncontinued tail ?_ hfirst' hlast' htail]
  · simp
  · exact (sealed_of_not_mem fun hmem => hplain' (List.mem_append_right _ hmem)).uncontinued

/-- Preparing a text without backslashes adds only line feeds. -/
theorem mem_of_mem_prepare {cs : List Char} (h : '\\' ∉ cs) {d : Char} (hd : d ∈ prepare cs) : d ∈ cs ∨ d = '\n' := by
  obtain ⟨lead, tail, hcs, -⟩ := strip_split cs
  rw [prepare_plain h] at hd
  rcases List.mem_append.1 hd with hd | hd
  · rw [hcs]
    exact .inl (List.mem_append_right _ (List.mem_append_left _ hd))
  · exact .inr (by simpa using hd)

end Split

end Justfile.Parsing
