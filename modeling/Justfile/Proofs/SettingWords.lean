import Justfile.Proofs.Checks
import Justfile.Proofs.Unambiguous
import Justfile.Proofs.Unquoting

/-!
# Settings as words of the script

The directory for temporary files and the shell are settings that a script assigns to variables of its own. The
directory is written between quotes as texts are shown, which are not the quotes of a shell; the shell is put
between apostrophes as it is. So a shell reads back some of these texts only.

* `not_unquotes_self`: no text stands for itself with an apostrophe in front.
* `wordFrom_apostrophes_eq_iff`: a text that is put between apostrophes is read as it is just if it has none.
* `wordFrom_quoted_eq_iff`: a text that is shown between quotes is read as it is just if it is `Kept`.
* `setting_words`: **the directory of a script is that of the setting just if it is `Kept`, and its shell that of the
  setting just if it has no apostrophe.**
-/

namespace Justfile

open Shell Shell.Reader

namespace Shell.Reader

/-- **No text stands for itself with an apostrophe in front.** An ordinary text that stands somewhere in it would have
to be read from a place further to the left, where it would stand too, and so on. -/
theorem not_unquotes_self {name : List Char} (hname : ∀ c ∈ name, c ∉ quotingChars) (hne : name ≠ []) {m' : Mode}
    {t z before after : List Char} (hsplit : t ++ z = before ++ (name ++ after)) :
    ¬ Unquotes .plain (t ++ z) m' ('\'' :: t) := by
  intro h
  induction hn : before.length using Nat.strong_induction_on generalizing before after with
  | _ n ih =>
    rw [hsplit] at h
    obtain ⟨m₁, l₁, l₂, hbefore, hname', hl⟩ := h.append
    obtain ⟨m₂, l₃, l₄, hread, -, rfl⟩ := hname'.append
    obtain ⟨front, rfl, hfront⟩ := hread.of_ordinary hname
    have hlength : l₁.length + m₁.waiting ≤ before.length := hbefore.length_le
    have hl : '\'' :: t = (l₁ ++ front) ++ (name ++ l₄) := by rw [hl]; simp
    cases hread' : l₁ ++ front with
    | nil =>
      -- the text does not begin with an apostrophe
      rw [hread', List.nil_append] at hl
      cases name with
      | nil => exact hne rfl
      | cons d name =>
        obtain ⟨rfl, -⟩ := List.cons.inj hl
        exact hname '\'' List.mem_cons_self (by decide)
    | cons d left =>
      rw [hread', List.cons_append] at hl
      obtain ⟨-, rfl⟩ := List.cons.inj hl
      have hshorter : left.length < n := by
        have hboth := congrArg List.length hread'
        rw [List.length_append, List.length_cons] at hboth
        omega
      exact ih _ hshorter (by simp : left ++ (name ++ l₄) ++ z = left ++ (name ++ (l₄ ++ z))) rfl

/-- A word does not end in a text without characters that end words. -/
theorem exists_append_of_ends {name w rest rest' : List Char} (h : name ++ rest = w ++ rest')
    (hname : ∀ c ∈ name, c ∉ enders) (hrest : ∀ c ∈ rest'.head?, c ∈ enders) : ∃ more, w = name ++ more := by
  rcases List.append_eq_append_iff.1 h with ⟨more, hw, -⟩ | ⟨more, hsplit, hrest'⟩
  · exact ⟨more, hw⟩
  · cases more with
    | nil => exact ⟨[], by rw [hsplit, List.append_nil, List.append_nil]⟩
    | cons c more =>
      have hc : c ∈ enders := hrest c (by rw [hrest']; rfl)
      exact absurd hc (hname c (by rw [hsplit]; simp))

/-- An apostrophe after which nothing is quoted gives no letter, or that of a backslash before it. -/
theorem letters_apostrophe {m : Mode} {out : List Char} (h : letters m '\'' = some (.plain, out)) :
    out.length ≤ m.waiting := by
  cases m with
  | escape quoted =>
    cases quoted with
    | false =>
      cases h
      exact Nat.le_refl _
    | true => cases h
  | single =>
    cases h
    exact Nat.le_refl _
  | _ => cases h

/-- A text with an apostrophe behind, or a start of that, does not stand for the text with an apostrophe in front: as
long as it is, it would have to lose no letter. -/
theorem not_unquotes_shorter {t w more : List Char} (hw : t ++ ['\''] = w ++ more) :
    ¬ Unquotes .plain w .plain ('\'' :: t) := by
  intro h
  have hlength : t.length + 1 ≤ w.length := h.length_le
  have hboth := congrArg List.length hw
  rw [List.length_append, List.length_append, List.length_singleton] at hboth
  obtain rfl : more = [] := List.eq_nil_of_length_eq_zero (by omega)
  rw [List.append_nil] at hw
  rw [← hw] at h
  -- the last apostrophe ends a quote, or the backslash before it is lost
  obtain ⟨m₁, l₁, l₂, ht, hlast, hl⟩ := h.append
  have hbefore : l₁.length + m₁.waiting ≤ t.length := ht.length_le
  have hout : l₂.length ≤ m₁.waiting := by
    cases hlast with
    | cons hc hnil =>
      cases hnil
      rw [List.append_nil]
      exact letters_apostrophe hc
  have hsum := congrArg List.length hl
  rw [List.length_cons, List.length_append] at hsum
  omega

/-- **A text between apostrophes, before an ordinary text on the next line, is read as it is just if it has no
apostrophe.** -/
theorem wordFrom_apostrophes_eq_iff {name : List Char} (hname : ∀ c ∈ name, c ∉ quotingChars)
    (hends : ∀ c ∈ name, c ∉ enders) (hne : name ≠ []) {cs rest : List Char} :
    wordFrom ⟨.fresh, []⟩ ('\'' :: (cs ++ '\'' :: '\n' :: (name ++ rest))) = some (cs.map .char) ↔ '\'' ∉ cs := by
  constructor
  · intro h hmem
    obtain ⟨before, t, rfl, hbefore⟩ := List.eq_append_cons_of_mem hmem
    have hin : '\'' :: (before ++ '\'' :: t ++ '\'' :: '\n' :: (name ++ rest)) =
        '\'' :: (before ++ '\'' :: (t ++ '\'' :: '\n' :: (name ++ rest))) := by simp
    rw [hin, wordFrom_apostrophes hbefore] at h
    obtain ⟨-, w, rest', out, hw, hrest', hout, hx⟩ := unquotes_of_inWord h
    obtain rfl : '\'' :: t = out := List.append_cancel_left hx
    have hw : (t ++ ['\'']) ++ '\n' :: (name ++ rest) = w ++ rest' := by rw [← hw]; simp
    rcases List.append_eq_append_iff.1 hw with ⟨more, rfl, hmore⟩ | ⟨more, hshorter, -⟩
    · cases more with
      | nil =>
        rw [List.append_nil] at hout
        exact not_unquotes_shorter (List.append_nil _).symm hout
      | cons c more =>
        -- the word goes on over the next line, and so over the text there
        obtain ⟨rfl, hnext⟩ := List.cons.inj hmore
        obtain ⟨after, rfl⟩ := exists_append_of_ends hnext hends hrest'
        have hsplit : t ++ (['\''] ++ '\n' :: (name ++ after)) = (t ++ ['\'', '\n']) ++ (name ++ after) := by simp
        rw [List.append_assoc] at hout
        exact not_unquotes_self hname hne hsplit hout
    · exact not_unquotes_shorter hshorter hout
  · intro h
    rw [wordFrom_apostrophes h, wordFrom_newline]

end Shell.Reader

namespace Text

theorem quotedChar_ne_nil (q c : Char) : quotedChar q c ≠ [] := by
  rcases quotedChar_cases q c with ⟨hc, -⟩ | ⟨e, cs, hc⟩
  · rw [hc]
    exact List.cons_ne_nil _ _
  · rw [hc]
    exact List.cons_ne_nil _ _

theorem quoted_append {cs : List Char} {q : Char} (hq : quoteFor cs = q) (r : List Char) :
    quoted cs ++ r = q :: (cs.flatMap (quotedChar q) ++ q :: r) := by
  unfold quoted
  rw [hq]
  simp

theorem apostrophe_notMem_quotedChar {c : Char} (hc : c ≠ '\'') : '\'' ∉ quotedChar '\'' c := by
  have hhex : ∀ width n, '\'' ∉ hex width n := by
    intro width n hmem
    exact absurd (List.all_eq_true.1 (isNameRest_hex width n) _ hmem) (by decide)
  unfold quotedChar shortEscape? codeEscape
  grind

theorem apostrophe_notMem_shown {cs : List Char} (h : '\'' ∉ cs) : '\'' ∉ cs.flatMap (quotedChar '\'') := by
  intro hmem
  obtain ⟨c, hc, hcmem⟩ := List.mem_flatMap.1 hmem
  exact apostrophe_notMem_quotedChar (fun hcq => h (hcq ▸ hc)) hcmem

/-- A text with an apostrophe is not shown as it is up to there: where it is shown in another way first, a backslash
stands that is not in the text, and `n` of them if the text has `n` there. -/
theorem shown_ne {cs ds : List Char} (hcs : '\'' ∉ cs) : ∀ (n : Nat) (more : List Char),
    List.replicate n '\\' ++ (cs.flatMap (quotedChar '\'') ++ '\\' :: more) ≠ cs ++ '\'' :: ds := by
  induction cs with
  | nil =>
    intro n more h
    cases n with
    | zero => exact absurd (List.cons.inj h).1 (by decide)
    | succ n => exact absurd (List.cons.inj h).1 (by decide)
  | cons c cs ih =>
    rw [List.mem_cons, not_or] at hcs
    intro n more h
    rw [List.flatMap_cons, List.append_assoc, List.cons_append] at h
    by_cases hback : c = '\\'
    · subst hback
      have hshown : quotedChar '\'' '\\' = ['\\', '\\'] := rfl
      have hfront : ∀ xs : List Char, List.replicate n '\\' ++ (['\\', '\\'] ++ xs) =
          '\\' :: (List.replicate (n + 1) '\\' ++ xs) := by
        intro xs
        have htwo : List.replicate n '\\' ++ ['\\', '\\'] = List.replicate (n + 2) '\\' := by
          rw [List.replicate_succ', List.replicate_succ', List.append_assoc]
          rfl
        rw [← List.append_assoc, htwo]
        rfl
      rw [hshown, hfront] at h
      exact ih hcs.2 (n + 1) more (List.cons.inj h).2
    · cases n with
      | zero =>
        rcases quotedChar_cases '\'' c with ⟨hc, -⟩ | ⟨e, xs, hc⟩
        · rw [hc] at h
          exact ih hcs.2 0 more (List.cons.inj h).2
        · rw [hc] at h
          exact hback (List.cons.inj h).1.symm
      | succ n => exact hback (List.cons.inj h).1.symm

theorem shortEscape?_eq_none {c : Char} (h : isPrintable c = true) : shortEscape? c = none := by
  have hne : ∀ d, isPrintable d = false → c ≠ d := fun d hd hcd => by rw [hcd, hd] at h; cases h
  unfold shortEscape?
  rw [if_neg (hne _ (by decide)), if_neg (hne _ (by decide)), if_neg (hne _ (by decide))]

/-- **The characters that are shown as themselves.** -/
theorem quotedChar_eq_self_iff {q c : Char} (hc : c ≠ q) :
    quotedChar q c = [c] ↔ c ≠ '\\' ∧ isPrintable c = true := by
  constructor
  · intro h
    rcases quotedChar_cases q c with ⟨-, -, hself⟩ | ⟨e, cs, hback⟩
    · exact hself
    · rw [hback] at h
      cases (List.cons.inj h).2
  · rintro ⟨hback, hprint⟩
    unfold quotedChar
    rw [if_neg (by simp [hc, hback]), shortEscape?_eq_none hprint]
    exact if_pos hprint

/-- Texts that are written with something for each character. -/
theorem flatMap_eq_self_iff {f : Char → List Char} {cs : List Char} (hf : ∀ c, f c ≠ []) :
    cs.flatMap f = cs ↔ ∀ c ∈ cs, f c = [c] := by
  have hlength : ∀ cs : List Char, cs.length ≤ (cs.flatMap f).length := by
    intro cs
    induction cs with
    | nil => exact Nat.le_refl _
    | cons c cs ih =>
      have hc := List.length_pos_of_ne_nil (hf c)
      rw [List.flatMap_cons, List.length_append, List.length_cons]
      omega
  induction cs with
  | nil => exact ⟨fun _ c hc => absurd hc List.not_mem_nil, fun _ => rfl⟩
  | cons c cs ih =>
    rw [List.flatMap_cons, List.forall_mem_cons]
    constructor
    · intro h
      have hall := congrArg List.length h
      have hrest := hlength cs
      cases hfc : f c with
      | nil => exact absurd hfc (hf c)
      | cons d more =>
        rw [hfc, List.length_append, List.length_cons, List.length_cons] at hall
        obtain rfl : more = [] := List.eq_nil_of_length_eq_zero (by omega)
        rw [hfc] at h
        obtain ⟨rfl, hcs⟩ := List.cons.inj h
        exact ⟨rfl, ih.1 hcs⟩
    · rintro ⟨hc, hcs⟩
      rw [hc, ih.2 hcs]
      rfl

end Text

namespace Shell.Reader

variable {ps : List Piece} {cs rest : List Char}

/-- What a character is read as that is shown in a text between double quotes: a backslash is read as one, all else
as it is shown. -/
def heard (c : Char) : List Char :=
  if c = '\\' then [c] else Text.quotedChar '"' c

theorem hex_notMem_doubleChars (width n : Nat) : ∀ c ∈ Text.hex width n, c ∉ doubleChars := by
  intro c hc hmem
  have hrest := List.all_eq_true.1 (isNameRest_hex width n) c hc
  have hnone : doubleChars.all (fun c => !Parsing.isNameRest c) = true := rfl
  have hc := List.all_eq_true.1 hnone c hmem
  rw [hrest] at hc
  cases hc

/-- A character by its code point. -/
theorem wordFrom_codeEscape (c : Char) : wordFrom (inWord ps .double) (Text.codeEscape c ++ rest) =
    wordFrom (inWord (ps ++ (Text.codeEscape c).map .char) .double) rest := by
  have hcode : ∀ (e : Char) (width : Nat), e ∉ doubleChars → e ≠ '\n' →
      wordFrom (inWord ps .double) ('\\' :: e :: Text.hex width c.toNat ++ rest) =
        wordFrom (inWord (ps ++ ('\\' :: e :: Text.hex width c.toNat).map .char) .double) rest := by
    intro e width he hnewline
    rw [List.cons_append, List.cons_append, wordFrom_escape he hnewline,
      wordFrom_double (hex_notMem_doubleChars width c.toNat), List.append_assoc, ← List.map_append]
    rfl
  unfold Text.codeEscape
  simp only
  split
  · exact hcode 'x' 2 (by decide) (by decide)
  · split
    · exact hcode 'u' 4 (by decide) (by decide)
    · exact hcode 'U' 8 (by decide) (by decide)

theorem wordFrom_quotedChar {c : Char} (hc : c ∉ ['"', '$', '`']) :
    wordFrom (inWord ps .double) (Text.quotedChar '"' c ++ rest) =
      wordFrom (inWord (ps ++ (heard c).map .char) .double) rest := by
  have hne : ∀ d ∈ ['"', '$', '`'], c ≠ d := fun d hd hcd => hc (hcd ▸ hd)
  unfold heard
  by_cases hback : c = '\\'
  · subst hback
    rfl
  · rw [if_neg hback]
    unfold Text.quotedChar
    rw [if_neg (by simp [hne '"' (by decide), hback])]
    cases hshort : Text.shortEscape? c with
    | some e =>
      have he : e ∉ doubleChars ∧ e ≠ '\n' := by
        unfold Text.shortEscape? at hshort
        split at hshort
        · cases hshort; decide
        · split at hshort
          · cases hshort; decide
          · split at hshort
            · cases hshort; decide
            · cases hshort
      exact wordFrom_escape he.1 he.2
    | none =>
      simp only
      split
      · refine wordFrom_double fun d hd hmem => ?_
        obtain rfl := List.mem_singleton.1 hd
        simp only [doubleChars, List.mem_cons, List.not_mem_nil, or_false] at hmem hc
        tauto
      · exact wordFrom_codeEscape c

theorem wordFrom_quotedChars (h : ∀ c ∈ cs, c ∉ ['"', '$', '`']) :
    wordFrom (inWord ps .double) (cs.flatMap (Text.quotedChar '"') ++ rest) =
      wordFrom (inWord (ps ++ (cs.flatMap heard).map .char) .double) rest := by
  induction cs generalizing ps with
  | nil => rw [List.flatMap_nil, List.flatMap_nil, List.map_nil, List.append_nil, List.nil_append]
  | cons c cs ih =>
    rw [List.forall_mem_cons] at h
    rw [List.flatMap_cons, List.append_assoc, wordFrom_quotedChar h.1, ih h.2, List.flatMap_cons, List.map_append,
      List.append_assoc]

end Shell.Reader

/-- The texts that are read as they are where they are shown between quotes. -/
def Kept (cs : List Char) : Prop :=
  (∀ c ∈ cs, Text.isPrintable c = true) ∧ if '\'' ∈ cs then '"' ∉ cs ∧ '$' ∉ cs ∧ '`' ∉ cs else '\\' ∉ cs

namespace Shell.Reader

variable {cs : List Char} (rest : List Char)

theorem wordFrom_quoted_single (h : '\'' ∉ cs) :
    wordFrom ⟨.fresh, []⟩ (Text.quoted cs ++ '\n' :: rest) = some (cs.map .char) ↔ Kept cs := by
  have hquote : Text.quoteFor cs = '\'' := if_neg (by simp [h])
  rw [Text.quoted_append hquote, wordFrom_apostrophes (Text.apostrophe_notMem_shown h), wordFrom_newline,
    Option.some.injEq, map_char_injective.eq_iff, Text.flatMap_eq_self_iff (Text.quotedChar_ne_nil _), Kept, if_neg h]
  have hself : ∀ c ∈ cs, (Text.quotedChar '\'' c = [c] ↔ c ≠ '\\' ∧ Text.isPrintable c = true) :=
    fun c hc => Text.quotedChar_eq_self_iff fun hcq => h (hcq ▸ hc)
  constructor
  · intro hall
    refine ⟨fun c hc => ((hself c hc).1 (hall c hc)).2, fun hback => ?_⟩
    exact absurd rfl ((hself _ hback).1 (hall _ hback)).1
  · rintro ⟨hprint, hback⟩ c hc
    exact (hself c hc).2 ⟨fun hcb => hback (hcb ▸ hc), hprint c hc⟩

theorem heard_eq_self_iff {c : Char} (hc : c ≠ '"') : heard c = [c] ↔ Text.isPrintable c = true := by
  unfold heard
  split
  · rename_i hback
    rw [hback]
    decide
  · rename_i hback
    rw [Text.quotedChar_eq_self_iff hc]
    exact and_iff_right hback

theorem heard_ne_nil (c : Char) : heard c ≠ [] := by
  unfold heard
  split
  · exact List.cons_ne_nil _ _
  · exact Text.quotedChar_ne_nil _ _

theorem wordFrom_quoted_double (h : '\'' ∈ cs) (hq : '"' ∉ cs) :
    wordFrom ⟨.fresh, []⟩ (Text.quoted cs ++ '\n' :: rest) = some (cs.map .char) ↔ Kept cs := by
  have hquote : Text.quoteFor cs = '"' := if_pos (by simp [h, hq])
  rw [Text.quoted_append hquote, (wordFrom_open _).2, Kept, if_pos h]
  cases hfind : cs.find? (fun c => c == '$' || c == '`') with
  | none =>
    have hnone : '$' ∉ cs ∧ '`' ∉ cs := by
      rw [List.find?_eq_none] at hfind
      exact ⟨fun hmem => hfind _ hmem rfl, fun hmem => hfind _ hmem rfl⟩
    have hclose : ∀ ps, wordFrom (inWord ps .double) ('"' :: '\n' :: rest) = some ps := fun ps => rfl
    have hordinary : ∀ c ∈ cs, c ∉ ['"', '$', '`'] := by
      intro c hc hmem
      simp only [List.mem_cons, List.not_mem_nil, or_false] at hmem
      rcases hmem with rfl | rfl | rfl
      · exact hq hc
      · exact hnone.1 hc
      · exact hnone.2 hc
    rw [wordFrom_quotedChars hordinary, hclose, List.nil_append, Option.some.injEq, map_char_injective.eq_iff,
      Text.flatMap_eq_self_iff heard_ne_nil]
    have hself : ∀ c ∈ cs, (heard c = [c] ↔ Text.isPrintable c = true) :=
      fun c hc => heard_eq_self_iff fun hcq => hq (hcq ▸ hc)
    exact ⟨fun hall => ⟨fun c hc => (hself c hc).1 (hall c hc), hq, hnone⟩,
      fun hkept c hc => (hself c hc).2 (hkept.1 c hc)⟩
  | some d =>
    obtain ⟨hd, before, ds, rfl, hbefore⟩ := List.find?_eq_some_iff_append.1 hfind
    have hordinary : ∀ c ∈ before, c ∉ ['"', '$', '`'] := by
      intro c hc hmem
      have hnot := hbefore c hc
      simp only [List.mem_cons, List.not_mem_nil, or_false] at hmem
      rcases hmem with rfl | rfl | rfl
      · exact hq (List.mem_append_left _ hc)
      · cases hnot
      · cases hnot
    have hd : d = '$' ∨ d = '`' := by simpa using hd
    have hshown : Text.quotedChar '"' d = [d] := by rcases hd with rfl | rfl <;> rfl
    rw [List.flatMap_append, List.flatMap_cons, hshown, List.append_assoc, wordFrom_quotedChars hordinary,
      List.nil_append]
    refine ⟨fun hword => ?_, fun hkept => ?_⟩
    · -- an expansion begins, and what it gives is no letter
      rcases hd with rfl | rfl
      · have hdollar : ∀ ps cs, wordFrom (inWord ps .double) ('$' :: cs) = wordFrom (inWord ps (.dollar true)) cs :=
          fun _ _ => rfl
        rw [List.append_assoc, List.singleton_append, hdollar] at hword
        exact absurd (unquotes_of_inWord hword).1 (by decide)
      · cases hword
    · obtain ⟨-, -, hdollar, htick⟩ := hkept
      rcases hd with rfl | rfl
      · exact absurd (List.mem_append_right _ List.mem_cons_self) hdollar
      · exact absurd (List.mem_append_right _ List.mem_cons_self) htick

theorem wordFrom_quoted_both (h : '\'' ∈ cs) (hq : '"' ∈ cs) :
    wordFrom ⟨.fresh, []⟩ (Text.quoted cs ++ '\n' :: rest) ≠ some (cs.map .char) := by
  have hquote : Text.quoteFor cs = '\'' := if_neg (by simp [hq])
  obtain ⟨before, ds, rfl, hbefore⟩ := List.eq_append_cons_of_mem h
  have hbody : '\'' ∉ before.flatMap (Text.quotedChar '\'') ++ ['\\'] := by
    rw [List.mem_append, not_or]
    exact ⟨Text.apostrophe_notMem_shown hbefore, by decide⟩
  have htext : (before ++ '\'' :: ds).flatMap (Text.quotedChar '\'') ++ '\'' :: '\n' :: rest =
      (before.flatMap (Text.quotedChar '\'') ++ ['\\']) ++ '\'' ::
        (ds.flatMap (Text.quotedChar '\'') ++ '\'' :: '\n' :: rest) := by
    have hshown : Text.quotedChar '\'' '\'' = ['\\', '\''] := rfl
    rw [List.flatMap_append, List.flatMap_cons, hshown]
    simp
  rw [Text.quoted_append hquote, htext, wordFrom_apostrophes hbody]
  intro hword
  obtain ⟨-, w, rest', out, -, -, -, hx⟩ := unquotes_of_inWord hword
  rw [List.append_assoc] at hx
  exact Text.shown_ne hbefore 0 out hx.symm

/-- **A text that is shown between quotes on a line of its own is read as it is just if it is kept.** -/
theorem wordFrom_quoted_eq_iff (cs : List Char) :
    wordFrom ⟨.fresh, []⟩ (Text.quoted cs ++ '\n' :: rest) = some (cs.map .char) ↔ Kept cs := by
  by_cases h : '\'' ∈ cs
  · by_cases hq : '"' ∈ cs
    · refine ⟨fun hword => absurd hword (wordFrom_quoted_both rest h hq), fun hkept => ?_⟩
      rw [Kept, if_pos h] at hkept
      exact absurd hq hkept.2.1
    · exact wordFrom_quoted_double rest h hq
  · exact wordFrom_quoted_single rest h

end Shell.Reader

namespace Script

/-- The text of a script up to the variables that settings and options can change. -/
def opening (s : Script) : String :=
  "#!/bin/sh\n\n" ++ s.banner ++ "\n\n" ++ strictText ++ s.helperText ++ "\n\n" ++ Text.heading "Variables" ++ "\n" ++
    (if s.dotenv then dotenvText else "") ++ "\n# User-overwritable variables (via CLI)\n"

/-- The line before the shell. -/
def directoryLine : String :=
  "INVOCATION_DIRECTORY=\"$(pwd)\"\n"

theorem text_split (s : Script) :
    ∃ rest, s.text = s.opening ++ (tempdirText s.tempdir ++ (optionText s.shell s.shellArgs ++ rest)) := by
  unfold text variableText opening
  simp only [String.append_assoc]
  exact ⟨_, rfl⟩

/-- The word after `TMPDIR=`. -/
theorem tempdirText_append {dir : String} (h : dir ≠ "") (more : String) :
    ∃ after, tempdirText (some (.text dir)) ++ more = "TMPDIR=" ++ after ∧
      (wordAt after = some (lettersOf dir) ↔ Kept dir.toList) := by
  have hgiven : (SettingValue.text dir).isGiven = true := by simpa [SettingValue.isGiven] using h
  refine ⟨(Datum.text dir).quoted ++ ("\n" ++ more), ?_, ?_⟩
  · unfold tempdirText
    simp only [hgiven, if_true, String.append_assoc]
    rfl
  · have hchars : ((Datum.text dir).quoted ++ ("\n" ++ more)).toList =
        Text.quoted dir.toList ++ '\n' :: more.toList := by
      rw [String.toList_append, String.toList_append, Datum.quoted, String.toList_ofList, Datum.quotedChars]
      rfl
    unfold wordAt
    rw [hchars]
    exact wordFrom_quoted_eq_iff more.toList dir.toList

/-- The word after `DEFAULT_SHELL=`, with the next assignment on the line after it. -/
theorem wordAt_shell (shell rest : String) :
    wordAt ("'" ++ (shell ++ ("'\n" ++ ("DEFAULT_SHELL_ARGS=" ++ rest)))) = some (lettersOf shell) ↔
      '\'' ∉ shell.toList := by
  have hname : "DEFAULT_SHELL_ARGS=".toList.all (fun c => !(quotingChars ++ enders).contains c) = true := by decide
  have hnone : ∀ c ∈ "DEFAULT_SHELL_ARGS=".toList, c ∉ quotingChars ∧ c ∉ enders := by
    intro c hc
    simpa using List.all_eq_true.1 hname c hc
  have hchars : ("'" ++ (shell ++ ("'\n" ++ ("DEFAULT_SHELL_ARGS=" ++ rest)))).toList =
      '\'' :: (shell.toList ++ '\'' :: '\n' :: ("DEFAULT_SHELL_ARGS=".toList ++ rest.toList)) := by
    simp only [String.toList_append]
    rfl
  unfold wordAt
  rw [hchars]
  exact wordFrom_apostrophes_eq_iff (fun c hc => (hnone c hc).1) (fun c hc => (hnone c hc).2) (by decide)

theorem optionText_append (shell : String) (args : List String) (more : String) :
    ∃ after, optionText shell args ++ more = directoryLine ++ ("DEFAULT_SHELL=" ++ after) ∧
      (wordAt after = some (lettersOf shell) ↔ '\'' ∉ shell.toList) := by
  have hopen : "INVOCATION_DIRECTORY=\"$(pwd)\"\nDEFAULT_SHELL='" = directoryLine ++ ("DEFAULT_SHELL=" ++ "'") := by
    decide +kernel
  have hargs : "'\nDEFAULT_SHELL_ARGS='" = "'\n" ++ ("DEFAULT_SHELL_ARGS=" ++ "'") := by decide +kernel
  unfold optionText
  rw [hopen, hargs]
  simp only [String.append_assoc]
  exact ⟨_, rfl, wordAt_shell shell _⟩

end Script

/-- **Which settings reach a script as they are.** A script assigns the directory for temporary files, if it is not
empty, and the first word of the shell. The word after `TMPDIR=` is the directory just if all its characters are
printable, and it has neither apostrophes nor backslashes, or it has apostrophes and no double quotes, dollar signs
and backticks. The word after `DEFAULT_SHELL=` is the shell just if it has no apostrophes. -/
theorem setting_words {text script : String} {items : List Item} {edition : Edition} {outfile : String}
    (hparse : parse text = .ok items) (hscript : (compile edition outfile text).script = .ok script) :
    ∃ p s, (Program.ofItems items).result .empty = .ok p ∧
      (Script.ofProgram edition outfile text p).result ((Program.ofItems items).table .empty) = .ok s ∧
      s.text = script ∧
      (∀ dir, ("tempdir", .text dir) ∈ settingsIn items → dir ≠ "" →
        ∃ after, script = s.opening ++ ("TMPDIR=" ++ after) ∧
          (wordAt after = some (lettersOf dir) ↔ Kept dir.toList)) ∧
      ∀ shell args, ("shell", .words (shell :: args)) ∈ settingsIn items →
        ∃ after, script = s.opening ++ (Script.tempdirText s.tempdir ++
            (Script.directoryLine ++ ("DEFAULT_SHELL=" ++ after))) ∧
          (wordAt after = some (lettersOf shell) ↔ '\'' ∉ shell.toList) := by
  obtain ⟨p, s, hp, hs, htext⟩ := compile_eq_ok hparse hscript
  have hassembled := Script.assembled_of_ofProgram hs
  obtain ⟨rest, hsplit⟩ := s.text_split
  have hfind := ((Settings.ofItems_spec (parse_fits hparse)).2 _ (Program.assembled_of_ofItems hp).settings).2.2.2
  refine ⟨p, s, hp, hs, htext, fun dir hdir hne => ?_, fun shell args hmem => ?_⟩
  · rw [← htext, hsplit, hassembled.tempdir, (hfind _ _).2 hdir]
    obtain ⟨after, hafter, hword⟩ := Script.tempdirText_append hne (Script.optionText s.shell s.shellArgs ++ rest)
    exact ⟨after, by rw [hafter], hword⟩
  · have hwords : p.settings.shell? = some (shell, args) := by
      unfold Settings.shell?
      rw [(hfind _ _).2 hmem]
    have hshell := hassembled.shell
    rw [hwords] at hshell
    obtain ⟨rfl, rfl⟩ := Prod.mk.inj hshell
    obtain ⟨after, hafter, hword⟩ := Script.optionText_append s.shell s.shellArgs rest
    exact ⟨after, by rw [← htext, hsplit, hafter], hword⟩

/-- A directory with an apostrophe and a backslash, and a shell with an apostrophe. -/
def apostropheText : String :=
  "set tempdir := \"/it's\\\\x\"\nset shell := [\"it's\", '-c']\n"

def apostropheItems : List Item :=
  [⟨[], .setting "tempdir" (.text "/it's\\x")⟩, ⟨[], .setting "shell" (.words ["it's", "-c"])⟩]

theorem setting_words_apostrophe :
    parse apostropheText = .ok apostropheItems ∧
    ∃ script s, (compile ⟨"2000-01-02", "unknown"⟩ "just.sh" apostropheText).script = .ok script ∧
      (∃ after, script = Script.opening s ++ ("TMPDIR=" ++ after) ∧ wordAt after = some (lettersOf "/it's\\x")) ∧
      ∃ after, script = s.opening ++ (Script.tempdirText s.tempdir ++
          (Script.directoryLine ++ ("DEFAULT_SHELL=" ++ after))) ∧
        wordAt after ≠ some (lettersOf "it's") := by
  have hparse : parse apostropheText = .ok apostropheItems := by decide +kernel
  obtain ⟨script, hscript⟩ := compile_succeeds isDate_sample hparse rfl (by decide) rfl
  obtain ⟨p, s, -, -, -, hdir, hshell⟩ := setting_words hparse hscript
  obtain ⟨after, hafter, hword⟩ := hdir "/it's\\x" (by decide) (by decide)
  obtain ⟨after', hafter', hword'⟩ := hshell "it's" ["-c"] (by decide)
  have hprint : "/it's\\x".toList.all Text.isPrintable = true := by decide
  have hkept : Kept "/it's\\x".toList := ⟨List.all_eq_true.1 hprint, by rw [if_pos (by decide)]; decide⟩
  refine ⟨hparse, script, s, hscript, ⟨after, hafter, hword.2 hkept⟩, after', hafter', fun h => ?_⟩
  exact absurd (hword'.1 h) (by decide)

end Justfile
