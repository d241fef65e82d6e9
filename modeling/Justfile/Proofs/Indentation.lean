import Justfile.Proofs.TextLines
import Justfile.Text.Indent

/-!
# Common indentation is removed, and nothing else

The indentation of a text is found as the blanks at the start of what whole lines share, and a line is cut only if it has
all of that start. Both could go wrong where lines share more than blanks, or where blank lines have other blanks than
the rest. What is removed is the longest run of blanks with which all lines that are not blank begin.

* `prefix_commonStart_iff`: what lines begin with, all of them, is a start of what they share.
* `IsIndent`: the common indentation of lines. `isIndent_indentOf` and `IsIndent.eq_indentOf` say that it is the one that
  is found, if a line is not blank.
* `Dedented`: lines without their common indentation.
* `dedent_exact`: the text that is left of a text over several lines.
-/

namespace Justfile.Text

/-- A line of blanks, or an empty one. -/
def Blank (l : List Char) : Prop :=
  ∀ c ∈ l, isBlank c = true

/-- `t` is `s` without one leading line feed and then, if two line feeds end it, without the last. -/
def Trimmed (s t : List Char) : Prop :=
  ∃ u, (s = '\n' :: u ∨ s = u ∧ s.head? ≠ some '\n') ∧
    ((∃ v, u = v ++ ['\n', '\n'] ∧ t = v ++ ['\n']) ∨ t = u ∧ ¬ ['\n', '\n'] <:+ u)

/-- The longest run of blanks with which all lines that are not blank begin. -/
structure IsIndent (ls : List (List Char)) (w : List Char) : Prop where
  blank : Blank w
  starts : ∀ l ∈ ls, ¬ Blank l → w <+: l
  longest : ∀ v, Blank v → (∀ l ∈ ls, ¬ Blank l → v <+: l) → v.length ≤ w.length

/-- Lines with `w` removed from those that are not blank. Blank ones stay blank, and the others no longer begin with a
common blank. -/
structure Dedented (w : List Char) (ls ls' : List (List Char)) : Prop where
  lines : List.Forall₂ (fun l l' => (Blank l → Blank l') ∧ (¬ Blank l → l = w ++ l')) ls ls'
  bare : ¬ ∃ c, isBlank c = true ∧ ∀ l' ∈ ls', ¬ Blank l' → l'.head? = some c

variable {l s t v w : List Char} {ls : List (List Char)}

section Ends

theorem trimmed_iff : Trimmed s t ↔ trimEnds s = t := by
  -- the second step, for the text that the first one leaves
  have hsecond : ∀ u, ((∃ v, u = v ++ ['\n', '\n'] ∧ t = v ++ ['\n']) ∨ t = u ∧ ¬ ['\n', '\n'] <:+ u) ↔
      (if ['\n', '\n'].isSuffixOf u then u.dropLast else u) = t := by
    intro u
    by_cases hu : ['\n', '\n'] <:+ u
    · rw [if_pos (List.isSuffixOf_iff_suffix.2 hu)]
      obtain ⟨v, rfl⟩ := hu
      have hdrop : (v ++ ['\n', '\n']).dropLast = v ++ ['\n'] := by
        rw [List.dropLast_append_of_ne_nil (by simp)]
        rfl
      rw [hdrop]
      constructor
      · rintro (⟨v', hv, rfl⟩ | ⟨-, hnot⟩)
        · rw [List.append_cancel_right hv]
        · exact absurd (List.suffix_append v _) hnot
      · rintro rfl
        exact .inl ⟨v, rfl, rfl⟩
    · rw [if_neg fun h => hu (List.isSuffixOf_iff_suffix.1 h)]
      constructor
      · rintro (⟨v, rfl, -⟩ | ⟨rfl, -⟩)
        · exact absurd (List.suffix_append v _) hu
        · rfl
      · rintro rfl
        exact .inr ⟨rfl, hu⟩
  unfold Trimmed
  simp only [hsecond, trimEnds]
  split
  · rename_i rest
    constructor
    · rintro ⟨u, hu | ⟨rfl, hhead⟩, ht⟩
      · rwa [(List.cons.inj hu).2]
      · exact absurd rfl hhead
    · exact fun ht => ⟨rest, .inl rfl, ht⟩
  · rename_i hnot
    constructor
    · rintro ⟨u, rfl | ⟨rfl, -⟩, ht⟩
      · exact absurd rfl (hnot u)
      · exact ht
    · intro ht
      refine ⟨s, .inr ⟨rfl, fun hhead => ?_⟩, ht⟩
      obtain ⟨rest, hrest⟩ := List.head?_eq_some_iff.1 hhead
      exact hnot rest hrest

end Ends

section Starts

theorem prefix_sharedStart_iff {a b : List Char} : v <+: sharedStart a b ↔ v <+: a ∧ v <+: b := by
  fun_induction sharedStart a b generalizing v with
  | case1 a as bs ih =>
    cases v with
    | nil => simp
    | cons c v =>
      rw [List.cons_prefix_cons, List.cons_prefix_cons, List.cons_prefix_cons, ih]
      tauto
  | case2 a as b bs hne =>
    rw [List.prefix_nil]
    constructor
    · rintro rfl
      exact ⟨List.nil_prefix, List.nil_prefix⟩
    · rintro ⟨ha, hb⟩
      cases v with
      | nil => rfl
      | cons c v => exact absurd ((List.cons_prefix_cons.1 ha).1.symm.trans (List.cons_prefix_cons.1 hb).1) hne
  | case3 a b hnone =>
    rw [List.prefix_nil]
    constructor
    · rintro rfl
      exact ⟨List.nil_prefix, List.nil_prefix⟩
    · rintro ⟨ha, hb⟩
      cases a with
      | nil => exact List.prefix_nil.1 ha
      | cons c a =>
        cases b with
        | nil => exact List.prefix_nil.1 hb
        | cons d b => exact absurd rfl (hnone c a d b rfl)

theorem prefix_foldl_sharedStart_iff : v <+: ls.foldl sharedStart l ↔ v <+: l ∧ ∀ l' ∈ ls, v <+: l' := by
  induction ls generalizing l with
  | nil => simp
  | cons l' ls ih => rw [List.foldl_cons, ih, prefix_sharedStart_iff, List.forall_mem_cons, and_assoc]

/-- **What lines share.** -/
theorem prefix_commonStart_iff (hne : ls ≠ []) : v <+: commonStart ls ↔ ∀ l ∈ ls, v <+: l := by
  obtain ⟨l, ls, rfl⟩ := List.exists_cons_of_ne_nil hne
  rw [commonStart, prefix_foldl_sharedStart_iff, List.forall_mem_cons]

/-- Blanks at the start of a text are among the first blanks of it. -/
theorem prefix_takeWhile (h : v <+: l) (hv : Blank v) : v <+: l.takeWhile isBlank := by
  obtain ⟨rest, rfl⟩ := h
  rw [List.takeWhile_append_of_pos hv]
  exact List.prefix_append v _

end Starts

section Indents

/-- The lines that are not blank. -/
def solid (ls : List (List Char)) : List (List Char) :=
  ls.filter fun l => !l.all isBlank

/-- The indentation that is found for lines. -/
def indentOf (ls : List (List Char)) : List Char :=
  (commonStart (solid ls)).takeWhile isBlank

theorem all_isBlank_iff : l.all isBlank = true ↔ Blank l :=
  List.all_eq_true

theorem mem_solid_iff : l ∈ solid ls ↔ l ∈ ls ∧ ¬ Blank l := by
  rw [solid, List.mem_filter, Bool.not_eq_true', Bool.eq_false_iff, Ne, all_isBlank_iff]

theorem solid_ne_nil (h : ∃ l ∈ ls, ¬ Blank l) : solid ls ≠ [] := by
  obtain ⟨l, hl, hnot⟩ := h
  exact List.ne_nil_of_mem (mem_solid_iff.2 ⟨hl, hnot⟩)

theorem indentOf_of_blank (h : ∀ l ∈ ls, Blank l) : indentOf ls = [] := by
  have hnone : solid ls = [] :=
    List.eq_nil_iff_forall_not_mem.2 fun l hl => (mem_solid_iff.1 hl).2 (h l (mem_solid_iff.1 hl).1)
  rw [indentOf, hnone]
  rfl

theorem blank_indentOf (ls : List (List Char)) : Blank (indentOf ls) :=
  fun _ hc => List.mem_takeWhile_imp hc

variable (h : ∃ l ∈ ls, ¬ Blank l)

include h

theorem commonStart_starts (hl : l ∈ ls) (hnot : ¬ Blank l) : commonStart (solid ls) <+: l :=
  (prefix_commonStart_iff (solid_ne_nil h)).1 (List.prefix_refl _) l (mem_solid_iff.2 ⟨hl, hnot⟩)

/-- Blanks with which all lines that are not blank begin are a start of the indentation. -/
theorem prefix_indentOf (hv : Blank v) (hstarts : ∀ l ∈ ls, ¬ Blank l → v <+: l) : v <+: indentOf ls := by
  refine prefix_takeWhile ((prefix_commonStart_iff (solid_ne_nil h)).2 fun l hl => ?_) hv
  exact hstarts l (mem_solid_iff.1 hl).1 (mem_solid_iff.1 hl).2

/-- **The indentation that is found is the common one.** -/
theorem isIndent_indentOf : IsIndent ls (indentOf ls) where
  blank := blank_indentOf ls
  starts _ hl hnot := (List.takeWhile_prefix _).trans (commonStart_starts h hl hnot)
  longest _ hv hstarts := (prefix_indentOf h hv hstarts).length_le

theorem IsIndent.eq_indentOf (hw : IsIndent ls w) : w = indentOf ls := by
  have hindent := isIndent_indentOf h
  exact (prefix_indentOf h hw.blank hw.starts).eq_of_length_le (hw.longest _ hindent.blank hindent.starts)

end Indents

section Lines

/-- What becomes of a line of `ls`. -/
def dedentLine (ls : List (List Char)) (l : List Char) : List Char :=
  if (commonStart (solid ls)).isPrefixOf l then l.drop (indentOf ls).length else []

theorem joinRows_ended (hne : ls ≠ []) : joinRows ls ++ ['\n'] = ls.flatMap (· ++ ['\n']) := by
  fun_induction joinRows ls with
  | case1 => exact absurd rfl hne
  | case2 l => rw [List.flatMap_singleton]
  | case3 l ls hls ih =>
    rw [List.append_assoc, List.cons_append, ih fun hnil => hls hnil, List.flatMap_cons, List.append_assoc]
    rfl

theorem dedent_eq (ht : trimEnds s = t) (hls : splitLines t = ls) : dedent s =
    if (indentOf ls).isEmpty then t else joinRows (ls.map (dedentLine ls)) ++ ['\n'] := by
  subst ht hls
  rfl

/-- What becomes of a line has no more line ends than the line. -/
theorem unbroken_dedentLine (hl : Unbroken l) : Unbroken (dedentLine ls l) := by
  unfold dedentLine
  split
  · exact fun c hc => hl c (List.mem_of_mem_drop hc)
  · exact fun c hc => absurd hc List.not_mem_nil

theorem blank_dedentLine (hl : Blank l) : Blank (dedentLine ls l) := by
  unfold dedentLine
  split
  · exact fun c hc => hl c (List.mem_of_mem_drop hc)
  · exact fun c hc => absurd hc List.not_mem_nil

variable (h : ∃ l ∈ ls, ¬ Blank l)

include h

/-- A line that is not blank loses just the indentation. -/
theorem eq_append_dedentLine (hl : l ∈ ls) (hnot : ¬ Blank l) : l = indentOf ls ++ dedentLine ls l := by
  rw [dedentLine, if_pos (List.isPrefixOf_iff_prefix.2 (commonStart_starts h hl hnot))]
  exact List.prefix_append_drop ((isIndent_indentOf h).starts l hl hnot)

/-- **The lines without their indentation.** -/
theorem dedented_map : Dedented (indentOf ls) ls (ls.map (dedentLine ls)) where
  lines := by
    rw [List.forall₂_map_right_iff, List.forall₂_same]
    exact fun l hl => ⟨blank_dedentLine, eq_append_dedentLine h hl⟩
  bare := by
    rintro ⟨c, hc, hstarts⟩
    -- a common blank would have belonged to the indentation
    have hblank : Blank (indentOf ls ++ [c]) := by
      intro d hd
      rcases List.mem_append.1 hd with hd | hd
      · exact blank_indentOf ls d hd
      · rw [List.mem_singleton.1 hd]
        exact hc
    have hlonger : ∀ l ∈ ls, ¬ Blank l → indentOf ls ++ [c] <+: l := by
      intro l hl hnot
      have hsplit := eq_append_dedentLine h hl hnot
      have hrest : ¬ Blank (dedentLine ls l) := by
        intro hrest
        refine hnot fun d hd => ?_
        rw [hsplit] at hd
        exact (List.mem_append.1 hd).elim (blank_indentOf ls d) (hrest d)
      obtain ⟨rest, hcons⟩ := List.head?_eq_some_iff.1 (hstarts _ (List.mem_map_of_mem hl) hrest)
      rw [hsplit, hcons]
      exact ⟨rest, by rw [List.append_assoc]; rfl⟩
    have hle := (isIndent_indentOf h).longest _ hblank hlonger
    rw [List.length_append, List.length_singleton] at hle
    omega

end Lines

/-- **What is left of an indented text.** Of a text over several lines, one line feed at its start and one of two at its
end are taken away first. If all lines of the rest are blank, or their common indentation is empty, that is all.
Otherwise it has as many lines as before, each ended by a line feed: those that are not blank lose just the common
indentation, and blank ones stay blank. -/
theorem dedent_exact (ht : Trimmed s t) (hls : HasLines t ls) :
    ((∀ l ∈ ls, Blank l) → dedent s = t) ∧
    ((∃ l ∈ ls, ¬ Blank l) → ∃ w, IsIndent ls w ∧ (∀ v, IsIndent ls v → v = w) ∧
      (w = [] → dedent s = t) ∧
      (w ≠ [] → ∃ ls', dedent s = ls'.flatMap (· ++ ['\n']) ∧ HasLines (dedent s) ls' ∧ ls'.length = ls.length ∧
        Dedented w ls ls')) := by
  have hdedent := dedent_eq (trimmed_iff.1 ht) (hasLines_iff.1 hls)
  refine ⟨fun hblank => ?_, fun h => ?_⟩
  · rw [hdedent, indentOf_of_blank hblank]
    rfl
  · refine ⟨indentOf ls, isIndent_indentOf h, fun v hv => hv.eq_indentOf h, fun hnil => ?_, fun hne => ?_⟩
    · rw [hdedent, hnil]
      rfl
    · have ⟨l, hl, _⟩ := h
      have hended : dedent s = (ls.map (dedentLine ls)).flatMap (· ++ ['\n']) := by
        rw [hdedent, if_neg (by simpa using hne), joinRows_ended (List.ne_nil_of_mem (List.mem_map_of_mem hl))]
      refine ⟨_, hended, ?_, List.length_map _, dedented_map h⟩
      rw [hended]
      refine hasLines_ended fun l' hl' => ?_
      obtain ⟨l₀, hl₀, rfl⟩ := List.mem_map.1 hl'
      exact unbroken_dedentLine (hls.unbroken l₀ hl₀)

/-- Lines that share a letter after their indentation, one with a tabulator more, and blank lines that are shorter or
longer than the indentation. -/
def indentedSample : List Char := "\n  ab\n \n  a\tc\n    \n\n".toList

theorem dedent_exact_sample :
    Trimmed indentedSample "  ab\n \n  a\tc\n    \n".toList ∧
    HasLines "  ab\n \n  a\tc\n    \n".toList ["  ab".toList, " ".toList, "  a\tc".toList, "    ".toList] ∧
    dedent indentedSample = "ab\n\na\tc\n\n".toList ∧
    ∃ w ls', IsIndent ["  ab".toList, " ".toList, "  a\tc".toList, "    ".toList] w ∧ w ≠ [] ∧
      dedent indentedSample = ls'.flatMap (· ++ ['\n']) ∧
      Dedented w ["  ab".toList, " ".toList, "  a\tc".toList, "    ".toList] ls' := by
  have ht : Trimmed indentedSample "  ab\n \n  a\tc\n    \n".toList := trimmed_iff.2 (by decide)
  have hls : HasLines "  ab\n \n  a\tc\n    \n".toList
      ["  ab".toList, " ".toList, "  a\tc".toList, "    ".toList] := hasLines_iff.2 (by decide)
  have hdedent : dedent indentedSample = "ab\n\na\tc\n\n".toList := by decide
  have hsolid : ¬ Blank "  ab".toList := fun h => absurd (h 'a' (by decide)) (by decide)
  obtain ⟨w, hw, -, hnil, hcut⟩ := (dedent_exact ht hls).2 ⟨_, List.mem_cons_self, hsolid⟩
  have hne : w ≠ [] := fun h => absurd (hnil h) (by decide)
  obtain ⟨ls', hended, -, -, hlines⟩ := hcut hne
  exact ⟨ht, hls, hdedent, w, ls', hw, hne, hended, hlines⟩

end Justfile.Text
