import Justfile.Proofs.Comments
import Justfile.Proofs.Gaps

/-!
# The smallest parts of the grammar on a text with more blanks

Words, names, marks, line ends and comments look at a text only up to the end of the line they start on, or at what
comes after blanks. So they do the same on both sides of the gap.

* `Computes p F`: the parser `p` does what the function `F` says, on texts without backslashes. `Local F`: what `F` gives
  up to a line feed does not depend on what follows it. Such parsers carry over the gap (`Carries.of_local`).
* `upTo`: a text up to the first place that is an end (`Carries.of_upTo`).
* `newline_carries`, `comment_carries`, `lineEnd_carries`: line ends and comments before the gap.
* `lineEnd_decided`: whether a line ends is the same with and without the blanks.
-/

namespace Justfile.Parsing

open Justfile.Parsing.Parser

variable {ω α β : Type} {g : Gap} {c f e : Prop} {p : Parser ω α}

/-- On texts without backslashes the parser gives what the function says. -/
def Computes (p : Parser ω α) (F : List Char → Option (α × List Char)) : Prop :=
  ∀ z, '\\' ∉ z → (∀ v r, F z = some (v, r) → Reads p z v r) ∧ (F z = none → Refuses p z)

namespace Computes

variable {F : List Char → Option (α × List Char)} {z : List Char} {pos far : Nat} {t t' : ω}

theorem eq_none (h : Computes p F) (hz : '\\' ∉ z) (hrun : p.run ⟨z, pos⟩ t = (.failed far, t')) : F z = none := by
  cases hF : F z with
  | none => rfl
  | some vr =>
    obtain ⟨next, far', t₁, hread⟩ := (h z hz).1 vr.1 vr.2 hF pos t
    have heq := hrun.symm.trans hread
    cases heq

theorem eq_some (h : Computes p F) (hz : '\\' ∉ z) {v : α} {next : Cursor}
    (hrun : p.run ⟨z, pos⟩ t = (.done v next far, t')) : F z = some (v, next.rest) := by
  cases hF : F z with
  | none =>
    obtain ⟨far', t₁, hfail⟩ := (h z hz).2 hF pos t
    have heq := hrun.symm.trans hfail
    cases heq
  | some vr =>
    obtain ⟨next', far', t₁, hread⟩ := (h z hz).1 vr.1 vr.2 hF pos t
    have heq := hrun.symm.trans hread
    cases heq
    rfl

end Computes

theorem Gap.plain_filled (g : Gap) {a : List Char} (h : '\\' ∉ a) : '\\' ∉ a ++ '\n' :: (g.filling ++ g.below) := by
  have hfilling : '\\' ∉ g.filling := fun hmem => absurd (g.blank _ hmem) (by decide)
  simp only [List.mem_append, List.mem_cons, not_or]
  exact ⟨h, by decide, hfilling, g.plain⟩

theorem Gap.plain_bare (g : Gap) {a : List Char} (h : '\\' ∉ a) : '\\' ∉ a ++ '\n' :: g.below := by
  simp only [List.mem_append, List.mem_cons, not_or]
  exact ⟨h, by decide, g.plain⟩

theorem Gap.plain_after (g : Gap) {x : List Char} (h : x <:+ g.below) : '\\' ∉ x :=
  fun hmem => g.plain (h.subset hmem)

section Function

variable {F : List Char → Option (α × List Char)}

/-- A parser that is a function of the text carries over after the gap, so that only what it does before counts. -/
theorem Carries.of_computes (hF : Computes p F) (hforward : Advances 0 p)
    (hnone : ∀ a, '\\' ∉ a → F (a ++ '\n' :: g.below) = none → F (a ++ '\n' :: (g.filling ++ g.below)) = none)
    (hsome : ∀ a v r, '\\' ∉ a → r <:+ a ++ '\n' :: g.below → F (a ++ '\n' :: g.below) = some (v, r) → c ∨ g.Over r →
      ∃ v' y', F (a ++ '\n' :: (g.filling ++ g.below)) = some (v', y') ∧ g.Twin r y' ∧ (g.Over r → v = v')) :
    Carries g c f e p p := by
  refine ⟨?_, hforward, ?_⟩
  · intro x y pos t far t' htwin _ hrun _
    cases htwin with
    | before ha => exact (hF _ (g.plain_filled ha)).2 (hnone _ ha (hF.eq_none (g.plain_bare ha) hrun))
    | after hx => exact (hF _ (g.plain_after hx)).2 (hF.eq_none (g.plain_after hx) hrun)
  · intro x y pos t v next far t' htwin _ hrun hstep
    have hsuffix := (hforward _ _ _ _ _ _ hrun).suffix
    cases htwin with
    | before ha =>
      obtain ⟨v', y', hy, htwin, hval⟩ := hsome _ v next.rest ha hsuffix (hF.eq_some (g.plain_bare ha) hrun)
        (hstep (Gap.over_append _))
      exact ⟨v', y', htwin, (hF _ (g.plain_filled ha)).1 _ _ hy, fun _ hside => hval (hside (Gap.over_append _))⟩
    | after hx =>
      exact ⟨v, next.rest, .after (hsuffix.trans hx), (hF _ (g.plain_after hx)).1 _ _ (hF.eq_some (g.plain_after hx) hrun),
        fun _ _ => rfl⟩

/-- What is read up to a line feed does not depend on what follows the line feed. -/
def Local (F : List Char → Option (α × List Char)) : Prop :=
  ∀ a z, F (a ++ '\n' :: z) = (F (a ++ ['\n'])).map fun vr => (vr.1, vr.2 ++ z)

/-- A parser that looks no further than the next line feed carries over, and steps over the gap only if it reads that
line feed. -/
theorem Carries.of_local (hF : Computes p F) (hforward : Advances 0 p) (hlocal : Local F)
    (hc : c → ∀ a v, F (a ++ ['\n']) ≠ some (v, [])) : Carries g c f e p p := by
  refine .of_computes hF hforward (fun a ha h => ?_) fun a v r ha hsuffix h hside => ?_
  · rw [hlocal, Option.map_eq_none_iff] at h ⊢
    exact h
  · rw [hlocal] at h
    rw [hlocal]
    obtain ⟨⟨v, r⟩, hvr, heq⟩ := Option.map_eq_some_iff.1 h
    cases heq
    refine ⟨v, r ++ (g.filling ++ g.below), by rw [hvr]; rfl, ?_, fun _ => rfl⟩
    cases r with
    | nil =>
      rcases hside with hside | hside
      · exact absurd hvr (hc hside a v)
      · exact absurd hside (Gap.Twin.not_over List.suffix_rfl)
    | cons d r =>
      have hover : g.Over (d :: r ++ g.below) := by
        unfold Gap.Over
        simp only [List.length_append, List.length_cons]
        omega
      obtain ⟨a', ha', heq⟩ := Gap.eq_append_of_over hsuffix hover
      have hread : d :: r = a' ++ ['\n'] := by
        have hcancel : d :: r ++ g.below = (a' ++ ['\n']) ++ g.below := by
          rw [heq, List.append_assoc]
          rfl
        exact List.append_cancel_right hcancel
      rw [hread, List.append_assoc, List.append_assoc]
      exact .before fun hmem => ha (ha'.subset hmem)

theorem Decided.of_local (hF : Computes p F) (hforward : Advances 0 p) (hlocal : Local F) : Decided g e p p := by
  refine ⟨?_, hforward, ?_⟩
  · intro x y pos t far t' htwin he hrun
    have hcarries : Carries g False True e p p := .of_local hF hforward hlocal False.elim
    exact hcarries.failed htwin he hrun fun _ => trivial
  · intro x y pos t v next far t' htwin _ hrun
    cases htwin with
    | before ha =>
      have h := hF.eq_some (g.plain_bare ha) hrun
      rw [hlocal] at h
      obtain ⟨⟨v, r⟩, hvr, -⟩ := Option.map_eq_some_iff.1 h
      refine ⟨v, _, (hF _ (g.plain_filled ha)).1 v (r ++ (g.filling ++ g.below)) ?_⟩
      rw [hlocal, hvr]
      rfl
    | after hx => exact ⟨v, _, (hF _ (g.plain_after hx)).1 _ _ (hF.eq_some (g.plain_after hx) hrun)⟩

end Function

section Words

theorem after?_line {s : List Char} (hs : '\n' ∉ s.dropLast) (a z : List Char) :
    after? s (a ++ '\n' :: z) = (after? s (a ++ ['\n'])).map (· ++ z) := by
  induction a generalizing s with
  | nil =>
    cases s with
    | nil => rfl
    | cons d s =>
      cases s with
      | nil => by_cases hd : d = '\n' <;> simp [after?, hd]
      | cons d' s =>
        have hd : d ≠ '\n' := fun h => hs (by simp [h])
        simp [after?, hd]
  | cons b a ih =>
    cases s with
    | nil => simp [after?]
    | cons d s =>
      have hs' : '\n' ∉ s.dropLast := by
        intro h
        cases s with
        | nil => cases h
        | cons d' s => exact hs (List.mem_cons_of_mem _ h)
      simp only [List.cons_append, after?]
      split
      · exact ih hs'
      · rfl

theorem word_computes (s : String) :
    Computes (word s : Parser ω String) fun z => (after? s.toList z).map fun r => (s, r) := by
  intro z _
  refine ⟨fun v r h => ?_, fun h => .word (Option.map_eq_none_iff.1 h)⟩
  obtain ⟨r, hr, heq⟩ := Option.map_eq_some_iff.1 h
  cases heq
  rw [append_of_after? hr]
  exact .word s r

theorem word_local {s : String} (hs : '\n' ∉ s.toList.dropLast) :
    Local fun z => (after? s.toList z).map fun r => (s, r) := by
  intro a z
  simp only
  rw [after?_line hs]
  cases after? s.toList (a ++ ['\n']) <;> rfl

theorem word_forward (s : String) : Advances 0 (word s : Parser ω String) :=
  .of_alike (F := fun _ _ => False) fun _ => (Alike.wordLength s).weaken

/-- A word with no line feed, or with one as its last character. -/
theorem word_carries_of {s : String} (hs : '\n' ∉ s.toList.dropLast) (hc : c → '\n' ∉ s.toList) :
    Carries g c f e (word s : Parser ω String) (word s) := by
  refine .of_local (word_computes s) (word_forward s) (word_local hs) ?_
  intro hc' a v h
  obtain ⟨r, hr, heq⟩ := Option.map_eq_some_iff.1 h
  cases heq
  have happend := append_of_after? hr
  rw [List.append_nil] at happend
  exact hc hc' (happend ▸ List.mem_append_right _ (List.mem_singleton_self _))

theorem word_stays {s : String} (hs : '\n' ∉ s.toList) : Stays g (word s : Parser ω String) := by
  intro a pos t v next far t' hrun
  obtain ⟨v₁, n, far₁, t₁, far₂, hchars, hpure⟩ := bind_eq_done hrun
  cases hpure
  simp only [chars] at hchars
  split at hchars
  · rename_i rest hrest
    cases hchars
    rw [after?_line fun h => hs (List.mem_of_mem_dropLast h)] at hrest
    obtain ⟨r, hr, rfl⟩ := Option.map_eq_some_iff.1 hrest
    have happend := append_of_after? hr
    cases r with
    | nil =>
      rw [List.append_nil] at happend
      exact absurd (happend ▸ List.mem_append_right a (List.mem_singleton_self '\n')) hs
    | cons d r =>
      unfold Gap.Over
      simp only [List.length_append, List.length_cons]
      omega
  · cases hchars

theorem word_carries {s : String} (hs : '\n' ∉ s.toList) : Carries g c f e (word s : Parser ω String) (word s) :=
  word_carries_of (fun h => hs (List.mem_of_mem_dropLast h)) fun _ => hs

/-- A first character of a class, and what is left after it. -/
def firstOf (ok : Char → Bool) : List Char → Option (Char × List Char)
  | [] => none
  | d :: r => if ok d then some (d, r) else none

theorem satisfy_computes (ok : Char → Bool) : Computes (satisfy ok : Parser ω Char) (firstOf ok) := by
  intro z _
  cases z with
  | nil =>
    refine ⟨fun v r h => ?_, fun _ pos t => ⟨pos, t, rfl⟩⟩
    cases h
  | cons d z =>
    simp only [firstOf]
    split
    · rename_i hd
      refine ⟨fun v r h => ?_, fun h => ?_⟩
      · cases h
        exact .satisfy hd z
      · cases h
    · rename_i hd
      refine ⟨fun v r h => ?_, fun _ pos t => ⟨pos, t, ?_⟩⟩
      · cases h
      · simp [satisfy, hd]

/-- A character that is no line feed. -/
theorem satisfy_carries {ok : Char → Bool} (hc : c → ok '\n' = false) :
    Carries g c f e (satisfy ok : Parser ω Char) (satisfy ok) := by
  refine .of_local (satisfy_computes ok) (.of_alike (F := fun _ _ => False) fun _ => (Alike.satisfy ok).weaken) ?_ ?_
  · intro a z
    cases a with
    | nil => by_cases h : ok '\n' = true <;> simp [firstOf, h]
    | cons d a => by_cases h : ok d = true <;> simp [firstOf, h]
  · intro hc' a v h
    cases a with
    | nil => simp [firstOf, hc hc'] at h
    | cons d a => by_cases hd : ok d = true <;> simp [firstOf, hd] at h

/-- One character of a first class with those of a second class after it, and what is left after them. -/
def spanOf (first others : Char → Bool) : List Char → Option (List Char × List Char)
  | [] => none
  | d :: r => if first d then some (d :: r.takeWhile others, r.dropWhile others) else none

theorem span_computes (first others : Char → Bool) :
    Computes (span first others : Parser ω (List Char)) (spanOf first others) := by
  intro z _
  cases z with
  | nil =>
    refine ⟨fun v r h => ?_, fun _ pos t => ⟨pos, t, rfl⟩⟩
    cases h
  | cons d z =>
    simp only [spanOf]
    split
    · rename_i hd
      refine ⟨fun v r h => ?_, fun h => ?_⟩
      · cases h
        intro pos t
        exact ⟨_, 0, t, by simp only [span, hd, if_true]; rfl⟩
      · cases h
    · rename_i hd
      refine ⟨fun v r h => ?_, fun _ pos t => ⟨pos, t, ?_⟩⟩
      · cases h
      · simp [span, hd]

theorem takeWhile_line {ok : Char → Bool} (hok : ok '\n' = false) (u rest : List Char) :
    (u ++ '\n' :: rest).takeWhile ok = u.takeWhile ok := by
  induction u with
  | nil => exact List.takeWhile_cons_of_neg (by simp [hok])
  | cons d u ih => by_cases hd : ok d = true <;> simp [hd, ih]

/-- Characters of a class without line feeds. -/
theorem span_carries {first others : Char → Bool} (hfirst : first '\n' = false) (hothers : others '\n' = false) :
    Carries g c f e (span first others : Parser ω (List Char)) (span first others) := by
  refine .of_local (span_computes first others)
    (.of_alike (F := fun _ _ => False) fun _ => (Alike.span first others).weaken) ?_ ?_
  · intro a z
    cases a with
    | nil => simp [spanOf, hfirst]
    | cons d a =>
      simp only [spanOf, List.cons_append, takeWhile_line hothers, dropWhile_line others hothers]
      by_cases hd : first d = true <;> simp [hd]
  · intro _ a v h
    cases a with
    | nil => simp [spanOf, hfirst] at h
    | cons d a =>
      simp only [spanOf, List.cons_append, dropWhile_line others hothers] at h
      by_cases hd : first d = true <;> simp [hd] at h

/-- Blanks are read across the gap. -/
theorem blanks_carries : Carries g c f e (blanks : Parser ω (List Char)) blanks := by
  refine .of_computes (span_computes _ _) (.of_alike (F := fun _ _ => False) fun _ => (Alike.span _ _).weaken) ?_ ?_
  · intro a _ h
    cases a with
    | nil => cases h
    | cons d a =>
      simp only [spanOf, List.cons_append] at h ⊢
      by_cases hd : Text.isBlank d = true
      · rw [if_pos hd] at h
        cases h
      · rw [if_neg hd]
  · intro a v r ha _ h _
    have hfilling : (g.filling ++ g.below).dropWhile Text.isBlank = g.below.dropWhile Text.isBlank :=
      List.dropWhile_append_of_pos g.blank
    have hbelow : g.Twin (g.below.dropWhile Text.isBlank) (g.below.dropWhile Text.isBlank) :=
      .after (List.dropWhile_suffix _)
    have hnot : ¬g.Over (g.below.dropWhile Text.isBlank) := Gap.Twin.not_over (List.dropWhile_suffix _)
    cases a with
    | nil =>
      cases h
      refine ⟨_, _, rfl, ?_, fun hover => absurd hover hnot⟩
      rw [hfilling]
      exact hbelow
    | cons d a =>
      simp only [spanOf, List.cons_append] at h ⊢
      by_cases hd : Text.isBlank d = true
      · rw [if_pos hd] at h ⊢
        cases h
        refine ⟨_, _, rfl, ?_⟩
        -- the blanks end before the gap, or go on below it
        rw [List.dropWhile_append, List.dropWhile_append]
        split
        · rw [List.dropWhile_cons_of_pos rfl, List.dropWhile_cons_of_pos rfl, hfilling]
          exact ⟨hbelow, fun hover => absurd hover hnot⟩
        · rename_i hsome
          have hmem : '\\' ∉ a.dropWhile Text.isBlank := fun hmem =>
            ha (List.mem_cons_of_mem _ ((List.dropWhile_suffix _).subset hmem))
          have hlength : ¬(a.takeWhile Text.isBlank).length = a.length := by
            intro hlength
            refine hsome (List.isEmpty_iff.2 (List.eq_nil_of_length_eq_zero ?_))
            have happend := congrArg List.length (List.takeWhile_append_dropWhile (p := Text.isBlank) (l := a))
            rw [List.length_append] at happend
            omega
          refine ⟨.before hmem, fun _ => congrArg _ ?_⟩
          rw [List.takeWhile_append, List.takeWhile_append, if_neg hlength, if_neg hlength]
      · rw [if_neg hd] at h
        cases h

end Words

section Ends

/-- The text up to the first place where an end stands, and what is left there. -/
def upTo (ends : List Char → Bool) : List Char → Option (List Char × List Char)
  | [] => none
  | d :: z => if ends (d :: z) then some ([], d :: z) else (upTo ends z).map fun vr => (d :: vr.1, vr.2)

theorem untilEnd_computes {p : Parser ω Char} {stop : Parser ω β} {ends : List Char → Bool}
    (hp : ∀ d z, d ≠ '\\' → Reads p (d :: z) d z) (hnil : Refuses p [])
    (hstop : ∀ z, ends z = true → ∃ b r, Reads stop z b r) (hgo : ∀ z, ends z = false → Refuses stop z)
    (hends : ends [] = false) : Computes (untilEnd p stop 0) (upTo ends) := by
  have hloop : ∀ z, '\\' ∉ z → ∀ m count acc, z.length < m →
      (∀ v r, upTo ends z = some (v, r) → Reads ⟨untilLoop p stop 0 m count acc⟩ z (acc.reverse ++ v) r) ∧
        (upTo ends z = none → Refuses ⟨untilLoop p stop 0 m count acc⟩ z) := by
    intro z
    induction z with
    | nil =>
      intro _ m count acc hm
      obtain ⟨m, rfl⟩ : ∃ m', m = m' + 1 := ⟨m - 1, by omega⟩
      exact ⟨nofun, fun _ => .untilLoop_here (.inl (hgo [] hends)) hnil⟩
    | cons d z ih =>
      intro hz m count acc hm
      obtain ⟨m, rfl⟩ : ∃ m', m = m' + 1 := ⟨m - 1, by omega⟩
      rw [List.mem_cons, not_or] at hz
      rw [List.length_cons] at hm
      obtain ⟨hreads, hrefuses⟩ := ih hz.2 m (count + 1) (d :: acc) (by omega)
      have hone := hp d z (Ne.symm hz.1)
      rw [upTo]
      split
      · rename_i hend
        obtain ⟨b, r, hread⟩ := hstop _ hend
        refine ⟨fun v r h => ?_, nofun⟩
        cases h
        rw [List.append_nil]
        exact hread.untilLoop_stop (Nat.zero_le _)
      · rename_i hend
        have hon : GoesOn stop 0 count (d :: z) := .inl (hgo _ (by simpa using hend))
        refine ⟨fun v r h => ?_, fun h => .untilLoop_step hon hone (hrefuses (Option.map_eq_none_iff.1 h))⟩
        obtain ⟨⟨v, r⟩, hvr, heq⟩ := Option.map_eq_some_iff.1 h
        cases heq
        have hread := hreads v r hvr
        rw [List.reverse_cons, List.append_assoc, List.singleton_append] at hread
        exact .untilLoop_step hon hone hread
  intro z hz
  exact hloop z hz (z.length + 1) 0 [] (Nat.lt_succ_self _)

variable {ends : List Char → Bool}

/-- Where an end stands is seen before the next line feed. -/
def LocalEnd (ends : List Char → Bool) : Prop :=
  ∀ a z, ends (a ++ '\n' :: z) = ends (a ++ ['\n'])

/-- Up to an end that a line feed is. -/
theorem upTo_local (hlocal : LocalEnd ends) (hline : ends ['\n'] = true) : Local (upTo ends) := by
  intro a z
  induction a with
  | nil =>
    have hend : ends ('\n' :: z) = true := (hlocal [] z).trans hline
    simp [upTo, hend, hline]
  | cons d a ih =>
    have hend : ends (d :: (a ++ '\n' :: z)) = ends (d :: (a ++ ['\n'])) := hlocal (d :: a) z
    simp only [List.cons_append, upTo, hend, ih]
    split
    · simp
    · cases upTo ends (a ++ ['\n']) <;> rfl

/-- Up to an end that no line feed is: the end stands before the next line feed, or after it. -/
theorem upTo_line (hlocal : LocalEnd ends) (hline : ends ['\n'] = false) (a : List Char) :
    (∃ v a', a' <:+ a ∧ ∀ z, upTo ends (a ++ '\n' :: z) = some (v, a' ++ '\n' :: z)) ∨
      ∀ z, upTo ends (a ++ '\n' :: z) = (upTo ends z).map fun vr => (a ++ '\n' :: vr.1, vr.2) := by
  induction a with
  | nil =>
    refine .inr fun z => ?_
    have hend : ends ('\n' :: z) = false := (hlocal [] z).trans hline
    simp [upTo, hend]
  | cons d a ih =>
    have hlocal' : ∀ z, ends (d :: (a ++ '\n' :: z)) = ends (d :: (a ++ ['\n'])) := hlocal (d :: a)
    by_cases hend : ends (d :: (a ++ ['\n'])) = true
    · refine .inl ⟨[], d :: a, List.suffix_rfl, fun z => ?_⟩
      simp [upTo, hlocal', hend]
    · rcases ih with ⟨v, a', ha', h⟩ | h
      · refine .inl ⟨d :: v, a', ha'.trans (List.suffix_cons _ _), fun z => ?_⟩
        simp [upTo, hlocal', hend, h]
      · refine .inr fun z => ?_
        simp only [List.cons_append, upTo, hlocal', hend, h, Option.map_map]
        rfl

theorem upTo_append {u : List Char} (h : ∀ d ∈ u, ∀ z, ends (d :: z) = false) (z : List Char) :
    upTo ends (u ++ z) = (upTo ends z).map fun vr => (u ++ vr.1, vr.2) := by
  induction u with
  | nil => simp
  | cons d u ih =>
    have hend := h d List.mem_cons_self (u ++ z)
    rw [List.cons_append, upTo, hend, ih fun d' hd' => h d' (List.mem_cons_of_mem _ hd')]
    cases upTo ends z <;> rfl

theorem append_of_upTo {z v r : List Char} (h : upTo ends z = some (v, r)) : z = v ++ r := by
  induction z generalizing v with
  | nil => cases h
  | cons d z ih =>
    rw [upTo] at h
    split at h
    · cases h
      rfl
    · obtain ⟨⟨v, r⟩, hvr, heq⟩ := Option.map_eq_some_iff.1 h
      cases heq
      rw [ih hvr, List.cons_append]

/-- The text between marks may step over the gap: no mark stands in the blanks. -/
theorem Carries.of_upTo {p : Parser ω (List Char)} (hp : Computes p (upTo ends)) (hforward : Advances 0 p)
    (hlocal : LocalEnd ends) (hblank : ∀ d z, Text.isBlank d = true → ends (d :: z) = false) :
    Carries g c f e p p := by
  have hline : ends ['\n'] = false := hblank _ _ rfl
  have hfilling : upTo ends (g.filling ++ g.below) = (upTo ends g.below).map fun vr => (g.filling ++ vr.1, vr.2) :=
    upTo_append (fun d hd z => hblank d z (g.blank d hd)) g.below
  refine .of_computes hp hforward (fun a _ h => ?_) fun a v r ha hsuffix h _ => ?_
  · rcases upTo_line hlocal hline a with ⟨v, a', -, hread⟩ | hread
    · rw [hread] at h
      cases h
    · rw [hread, Option.map_eq_none_iff] at h
      rw [hread, hfilling, h]
      rfl
  · rcases upTo_line hlocal hline a with ⟨v', a', ha', hread⟩ | hread
    · rw [hread] at h ⊢
      cases h
      exact ⟨_, _, rfl, .before fun hmem => ha (ha'.subset hmem), fun _ => rfl⟩
    · rw [hread] at h
      obtain ⟨⟨v', r'⟩, hvr, heq⟩ := Option.map_eq_some_iff.1 h
      cases heq
      have hr : r' <:+ g.below := ⟨v', (append_of_upTo hvr).symm⟩
      refine ⟨_, r', by rw [hread, hfilling, hvr]; rfl, .after hr, fun hover => absurd hover (Gap.Twin.not_over hr)⟩

end Ends

variable {q : Parser ω α}

theorem Carries.spread (hp : Carries g c f e p q) : Carries g c f e (spread p) (spread q) := by
  refine (blanks_carries.optional).bind fun _ _ => ?_
  refine (hp.assume And.left).bind_last (fun a b => ?_) fun _ => (NeverFails.optional _).bind fun _ => .pure _
  exact blanks_carries.optional.bind_last (fun _ _ => .pure fun h => h.1.2) fun _ => .pure _

/-- A word on one line, with any blanks around it. -/
theorem symbol_carries {s : String} (hs : '\n' ∉ s.toList) :
    Carries g c f e (spread (word s) : Parser ω String) (spread (word s)) :=
  (word_carries hs).spread

theorem Carries.spaced (hp : Carries g c f e p q) : Carries g c f e (spaced p) (spaced q) := by
  have hspaces : ∀ {c f e : Prop}, Carries g c f e (spaces : Parser ω (List Char)) spaces := span_carries rfl rfl
  refine hspaces.optional.bind fun _ _ => ?_
  refine (hp.assume And.left).bind_last (fun a b => ?_) fun _ => (NeverFails.optional _).bind fun _ => .pure _
  exact hspaces.optional.bind_last (fun _ _ => .pure fun h => h.1.2) fun _ => .pure _

section Literals

/-- A mark around a text: no blank at its start and no line feed in it. -/
structure IsMark (mark : String) : Prop where
  line : '\n' ∉ mark.toList
  head : ∃ d m, mark.toList = d :: m ∧ Text.isBlank d = false

/-- The mark stands at the start of the text. -/
def markEnd (mark : String) (z : List Char) : Bool :=
  (after? mark.toList z).isSome

variable {mark : String}

/-- The text up to the next mark, character by character. -/
theorem marked_carries {p : Parser ω Char} (hmark : IsMark mark) (hp : ∀ d z, d ≠ '\\' → Reads p (d :: z) d z)
    (hnil : Refuses p []) (hahead : Advances 1 p) :
    Carries g c f e (untilEnd p (word mark) 0) (untilEnd p (word mark) 0) := by
  obtain ⟨d, m, hd, hblank⟩ := hmark.head
  have hcomputes : Computes (untilEnd p (word mark) 0) (upTo (markEnd mark)) := by
    refine untilEnd_computes hp hnil (fun z hz => ?_) (fun z hz => ?_) ?_
    · obtain ⟨r, hr⟩ := Option.isSome_iff_exists.1 hz
      rw [append_of_after? hr]
      exact ⟨_, _, .word mark r⟩
    · exact .word (Option.isSome_eq_false_iff.1 hz |> Option.isNone_iff_eq_none.1)
    · simp [markEnd, hd, after?]
  refine .of_upTo hcomputes ?_ (fun a z => ?_) fun b z hb => ?_
  · exact .of_alike fun n => (hahead.alike n).untilEnd ((word_forward mark).alike n) 0
  · unfold markEnd
    rw [after?_line fun h => hmark.line (List.mem_of_mem_dropLast h)]
    exact Option.isSome_map
  · have hne : d ≠ b := by
      rintro rfl
      rw [hblank] at hb
      cases hb
    simp [markEnd, hd, after?, hne]

theorem anyChar_forward : Advances 1 (anyChar : Parser ω Char) :=
  .of_alike (F := fun _ _ => False) fun _ => anyChar_alike

theorem between_carries (hmark : IsMark mark) :
    Carries g c f e (between mark : Parser ω (List Char)) (between mark) := by
  have huntil : ∀ {c f e : Prop}, Carries g c f e (untilEnd anyChar (word mark) 0 : Parser ω (List Char))
      (untilEnd anyChar (word mark) 0) :=
    marked_carries hmark (fun d z _ => .satisfy rfl z) (fun pos t => ⟨pos, t, rfl⟩) anyChar_forward
  refine (word_carries hmark.line).bind fun _ _ => huntil.bind fun _ _ => ?_
  exact (word_carries hmark.line).bind fun _ _ => .pure fun h => h.1.2

theorem cookedBetween_carries (hmark : IsMark mark) :
    Carries g c f e (cookedBetween mark : Parser ω (List Char)) (cookedBetween mark) := by
  have huntil : ∀ {c f e : Prop}, Carries g c f e (untilEnd (escape <|> anyChar) (word mark) 0 : Parser ω (List Char))
      (untilEnd (escape <|> anyChar) (word mark) 0) := by
    refine marked_carries hmark (fun d z hd => .orElse_right (escape_refuses hd) (.satisfy rfl z)) ?_ ?_
    · exact fun pos t => ⟨_, t, rfl⟩
    · exact .of_alike (F := fun _ _ => False) fun _ => .orElse escape_alike anyChar_alike
  refine (word_carries hmark.line).bind fun _ _ => huntil.bind fun _ _ => ?_
  exact (word_carries hmark.line).bind fun _ _ => .pure fun h => h.1.2

variable [Listener ω]

theorem name_carries : Carries g c f e (name : Parser ω String) name :=
  .traced ((span_carries rfl rfl).map _)

theorem stringLiteral_carries : Carries g c f e (stringLiteral : Parser ω String) stringLiteral := by
  refine .traced (.orElse (.traced (.map (cookedBetween_carries ⟨by decide, _, _, rfl, rfl⟩) _)) ?_)
  refine .orElse (.traced (.map (cookedBetween_carries ⟨by decide, _, _, rfl, rfl⟩) _)) ?_
  refine .orElse (.traced (.map (between_carries ⟨by decide, _, _, rfl, rfl⟩) _)) ?_
  exact .traced (.map (between_carries ⟨by decide, _, _, rfl, rfl⟩) _)

theorem indentedBacktick_carries : Carries g c f e (indentedBacktick : Parser ω Expr) indentedBacktick :=
  .traced (.map (between_carries ⟨by decide, _, _, rfl, rfl⟩) _)

theorem backtick_carries : Carries g c f e (backtick : Parser ω Expr) backtick :=
  .traced (.map (between_carries ⟨by decide, _, _, rfl, rfl⟩) _)

end Literals

section LineEnds

variable [Listener ω]

theorem newline_carries : Carries g False f e (newline : Parser ω String) newline :=
  .traced (.orElse (word_carries_of (by decide) False.elim) (word_carries_of (by decide) False.elim))

theorem newline_decided : Decided g e (newline : Parser ω String) newline := by
  have hword : ∀ {s : String}, '\n' ∉ s.toList.dropLast → Decided g e (word s : Parser ω String) (word s) :=
    fun hs => .of_local (word_computes _) (word_forward _) (word_local hs)
  exact .traced (.orElse (hword (by decide)) (hword (by decide)))

/-- A line ends at the start of the text. -/
def lineEnds (z : List Char) : Bool :=
  (after? ['\n'] z).isSome || (after? ['\r', '\n'] z).isSome

theorem lineEnds_local : LocalEnd lineEnds := by
  intro a z
  unfold lineEnds
  rw [after?_line (s := ['\n']) (by decide), after?_line (s := ['\r', '\n']) (by decide), Option.isSome_map,
    Option.isSome_map]

theorem commentText_carries :
    Carries g False f e (untilEnd anyChar newline 0 : Parser ω (List Char)) (untilEnd anyChar newline 0) := by
  have hcomputes : Computes (untilEnd anyChar newline 0 : Parser ω (List Char)) (upTo lineEnds) := by
    refine untilEnd_computes (fun d z _ => .satisfy rfl z) (fun pos t => ⟨pos, t, rfl⟩) (fun z hz => ?_)
      (fun z hz => ?_) rfl
    · refine newline_reads_of_atLineEnd ?_
      rw [lineEnds, Bool.or_eq_true, Option.isSome_iff_exists, Option.isSome_iff_exists] at hz
      rcases hz with ⟨r, hr⟩ | ⟨r, hr⟩
      · exact .inl ⟨r, (append_of_after? hr).symm⟩
      · exact .inr ⟨r, (append_of_after? hr).symm⟩
    · rw [lineEnds, Bool.or_eq_false_iff, Option.isSome_eq_false_iff, Option.isSome_eq_false_iff,
        Option.isNone_iff_eq_none, Option.isNone_iff_eq_none] at hz
      exact .traced (.orElse (.word hz.1) (.word hz.2))
  refine .of_local hcomputes ?_ (upTo_local lineEnds_local rfl) False.elim
  exact .of_alike (F := fun _ _ => False) fun _ => .untilEnd anyChar_alike newline_alike 0

/-- A number sign opens a comment unless an exclamation mark follows it. -/
def opensComment (z : List Char) : Bool :=
  match z.dropWhile isSpace with
  | '#' :: r => match r.dropWhile isSpace with
    | d :: _ => d != '!'
    | [] => false
  | _ => false

theorem opensComment_local : LocalEnd opensComment := by
  intro a z
  unfold opensComment
  rw [dropWhile_line isSpace rfl, dropWhile_line isSpace rfl]
  cases a.dropWhile isSpace with
  | nil => rfl
  | cons d r =>
    by_cases hd : d = '#'
    · subst hd
      simp only [List.cons_append, dropWhile_line isSpace rfl]
      cases r.dropWhile isSpace <;> rfl
    · simp [hd]

theorem Commented.opens {z s r : List Char} (h : Commented z s r) : opensComment z = true := by
  cases h with
  | mk hlead hgap hspace hfirst hline =>
    unfold opensComment
    rw [dropWhile_append_cons hlead rfl]
    simp only
    rw [dropWhile_append_cons hgap hspace]
    exact bne_iff_ne.2 hfirst

theorem upToLineEnd_of_mem {z : List Char} (h : '\n' ∈ z) : ∃ v r, UpToLineEnd z v r := by
  induction z with
  | nil => cases h
  | cons d z ih =>
    by_cases hend : AtLineEnd (d :: z)
    · exact ⟨[], _, .stop hend⟩
    · rcases List.mem_cons.1 h with rfl | h
      · exact absurd (.inl (List.prefix_append ['\n'] z)) hend
      · obtain ⟨v, r, hvr⟩ := ih h
        exact ⟨d :: v, r, .step hend hvr⟩

/-- A comment that is opened ends, as long as a line feed follows its first character. -/
theorem commented_of_opens {z : List Char} (h : opensComment z = true) (hz : 2 ≤ z.count '\n') :
    ∃ s r, Commented z s r := by
  have hlead := List.takeWhile_append_dropWhile (p := isSpace) (l := z)
  have hspaces : ∀ u : List Char, ∀ d ∈ u.takeWhile isSpace, isSpace d = true := fun u d hd => List.mem_takeWhile_imp hd
  have hcount : ∀ u : List Char, (u.takeWhile isSpace).count '\n' = 0 :=
    fun u => List.count_eq_zero.2 fun hmem => absurd (hspaces u _ hmem) (by decide)
  unfold opensComment at h
  split at h
  · rename_i r hr
    have hgap := List.takeWhile_append_dropWhile (p := isSpace) (l := r)
    split at h
    · rename_i d v hv
      rw [hv] at hgap
      rw [hr] at hlead
      have hspace : isSpace d = false := by
        have hhead := avoids_dropWhile isSpace r
        rw [hv] at hhead
        exact hhead d rfl
      have hmem : '\n' ∈ v := by
        have hfirst : [d].count '\n' ≤ 1 := List.count_le_length
        have hsum : z.count '\n' = [d].count '\n' + v.count '\n' := by
          rw [← hlead, ← hgap, List.count_append, hcount, List.count_cons_of_ne (by decide), List.count_append, hcount,
            ← List.singleton_append, List.count_append, Nat.zero_add, Nat.zero_add]
        exact List.count_pos_iff.1 (by omega)
      obtain ⟨s, rest, hline⟩ := upToLineEnd_of_mem hmem
      refine ⟨d :: s, rest, ?_⟩
      rw [← hlead, ← hgap]
      exact .mk (hspaces z) (hspaces r) hspace (bne_iff_ne.1 h) hline
    · cases h
  · cases h

/-- The blanks make no comment and take none away. -/
theorem commented_twin {x y : List Char} (h : g.Twin x y) : (∃ s r, Commented x s r) ↔ ∃ s r, Commented y s r := by
  cases h with
  | before _ =>
    rename_i a _
    have hcount : ∀ z : List Char, '\n' ∈ z → 2 ≤ (a ++ '\n' :: z).count '\n' := by
      intro z hz
      have hpos := List.count_pos_iff.2 hz
      rw [List.count_append, List.count_cons_self]
      omega
    have hopens : opensComment (a ++ '\n' :: g.below) = opensComment (a ++ '\n' :: (g.filling ++ g.below)) :=
      (opensComment_local a _).trans (opensComment_local a _).symm
    constructor
    · rintro ⟨s, r, h⟩
      exact commented_of_opens (hopens ▸ h.opens) (hcount _ (List.mem_append_right _ g.line))
    · rintro ⟨s, r, h⟩
      exact commented_of_opens (hopens ▸ h.opens) (hcount _ g.line)
  | after _ => exact Iff.rfl

/-- A comment that is read is read wherever it stands. -/
theorem comment_failed {x y : List Char} {pos far : Nat} {t t' : ω} (htwin : g.Twin x y)
    (hrun : (comment : Parser ω Declaration).run ⟨x, pos⟩ t = (.failed far, t')) :
    Refuses (comment : Parser ω Declaration) y := by
  refine comment_refuses_of_not_commented fun s r hy => ?_
  obtain ⟨s', r', hx⟩ := (commented_twin htwin).2 ⟨s, r, hy⟩
  obtain ⟨next, far', t₁, hread⟩ := hx.reads (ω := ω) pos t
  have heq := hrun.symm.trans hread
  cases heq

theorem comment_carries : Carries g False f e (comment : Parser ω Declaration) comment := by
  -- a comment that takes the line feed before the gap steps over it
  have hstays : Carries g False False e (comment : Parser ω Declaration) comment := by
    refine .traced ((Carries.spaced (word_carries (by decide))).bind fun _ _ => ?_)
    refine (satisfy_carries False.elim).chain (fun a b _ => ?_) id id False.elim
    refine commentText_carries.chain (fun v w _ => .pure ?_) id id False.elim
    rintro ⟨⟨-, rfl⟩, rfl⟩
    rfl
  exact ⟨fun htwin _ hrun _ => comment_failed htwin hrun, hstays.forward, hstays.done⟩

/-- A line end follows a comment. -/
theorem Commented.atLineEnd {z s r : List Char} (h : Commented z s r) : AtLineEnd r := by
  cases h with
  | mk hlead hgap hspace hfirst hline =>
    induction hline with
    | stop h => exact h
    | step _ _ ih => exact ih

/-- A comment with the end of its line. -/
def commentLine : Parser ω Datum := do
  let _ ← comment
  let s ← newline
  return toDatum s

theorem commentLine_reads {z s r : List Char} (h : Commented z s r) :
    ∃ d r', Reads (commentLine : Parser ω Datum) z d r' := by
  obtain ⟨w, r', hread⟩ := newline_reads_of_atLineEnd (ω := ω) h.atLineEnd
  exact ⟨_, r', h.reads.bind (hread.bind (.pure _ _))⟩

theorem commentLine_refuses {x y : List Char} {pos far : Nat} {t t' : ω} (htwin : g.Twin x y)
    (hrun : (commentLine : Parser ω Datum).run ⟨x, pos⟩ t = (.failed far, t')) :
    Refuses (commentLine : Parser ω Datum) y := by
  rcases bind_eq_failed hrun with hfail | ⟨d, n, far₁, t₁, far₂, hread, -⟩
  · exact (comment_failed htwin hfail).bind
  · -- the comment is read, so its line ends
    obtain ⟨s, -, hs⟩ := commented_of_comment hread
    obtain ⟨d', r', hline⟩ := commentLine_reads (ω := ω) hs
    obtain ⟨next, far', t₂, hline⟩ := hline pos t
    have heq := hrun.symm.trans hline
    cases heq

theorem commentLine_carries : Carries g False f e (commentLine : Parser ω Datum) commentLine := by
  have hstays : Carries g False False e (commentLine : Parser ω Datum) commentLine := by
    refine comment_carries.chain (fun _ _ _ => ?_) id id False.elim
    exact newline_carries.chain (fun s s' _ => .pure fun h => congrArg toDatum h.2) id id False.elim
  exact ⟨fun htwin _ hrun _ => commentLine_refuses htwin hrun, hstays.forward, hstays.done⟩

theorem lineEnd_carries : Carries g False f e (lineEnd : Parser ω Datum) lineEnd := by
  have hnewlines : Carries g False True e (many1 newline : Parser ω (List String)) (many1 newline) :=
    newline_carries.many1 (repetitions ω).newline
  exact .traced (commentLine_carries.orElse ((hnewlines.map _).weaken id fun _ => trivial))

theorem newline_reads_return (z : List Char) : Reads (newline : Parser ω String) ('\r' :: '\n' :: z) "\r\n" z := by
  have hno : Refuses (word "\n" : Parser ω String) ('\r' :: '\n' :: z) := word_refuses "\n" rfl (by decide)
  exact .traced (.orElse_right hno (.word "\r\n" z))

/-- Line ends are read as far as they go. -/
theorem newlines_read (z : List Char) : ∃ ss r, Repeats (newline : Parser ω String) z ss r := by
  induction hn : z.length using Nat.strong_induction_on generalizing z with
  | _ n ih =>
    by_cases hend : AtLineEnd z
    · obtain ⟨s, r, hread, hlt⟩ : ∃ s r, Reads (newline : Parser ω String) z s r ∧ r.length < z.length := by
        rcases hend with ⟨r, rfl⟩ | ⟨r, rfl⟩
        · exact ⟨_, r, newline_reads r, by simp⟩
        · exact ⟨_, r, newline_reads_return r, by simp⟩
      obtain ⟨ss, r', hss⟩ := ih r.length (hn ▸ hlt) r rfl
      exact ⟨s :: ss, r', .step hread hlt hss⟩
    · exact ⟨[], z, .stop (newline_refuses_of_not_atLineEnd hend)⟩

theorem lineEnd_decided : Decided g e (lineEnd : Parser ω Datum) lineEnd := by
  refine ⟨fun htwin he hrun => lineEnd_carries.failed htwin he hrun fun _ => trivial,
    .of_alike (F := fun _ _ => False) fun _ => lineEnd_alike.weaken, ?_⟩
  intro x y pos t v next far t' htwin he hrun
  obtain ⟨t₁, hrun⟩ := tracedBy_eq_done hrun
  rcases orElse_eq_done hrun with hrun | ⟨far₁, t₂, far₂, hfail, hrun⟩
  · obtain ⟨d, n, far₁, t₂, far₂, hcomment, -⟩ := bind_eq_done hrun
    obtain ⟨s, -, hs⟩ := commented_of_comment hcomment
    obtain ⟨s', r', hy⟩ := (commented_twin htwin).1 ⟨s, _, hs⟩
    obtain ⟨d', r, hread⟩ := commentLine_reads (ω := ω) hy
    exact ⟨d', r, .traced hread.orElse_left⟩
  · have hrefuse : Refuses (commentLine : Parser ω Datum) y := commentLine_refuses htwin hfail
    obtain ⟨ss, n, far₁, t₃, far₃, hmany, -⟩ := bind_eq_done hrun
    obtain ⟨s, n', far₄, t₄, far₅, hone, -⟩ := bind_eq_done hmany
    obtain ⟨s', y', hread⟩ := newline_decided.done htwin he hone
    obtain ⟨ss', r, hrest⟩ := newlines_read (ω := ω) y'
    have hall : Reads (many1 newline : Parser ω (List String)) y (s' :: ss') r :=
      hread.bind (hrest.many.bind (.pure _ _))
    exact ⟨_, r, .traced (.orElse_right hrefuse (hall.map _))⟩

end LineEnds

end Justfile.Parsing
