import Justfile.Proofs.Comments
import Justfile.Proofs.TextLines

/-!
# Boxes of a script

The headings of a script stand in boxes. One of them names the output file, so whether its lines fit depends on a name
that may be any. A line that is longer than a box is refused before its end is put after it. A line that leaves room
for the end makes a row as wide as the border.

* `length_padded`: how wide a row of a box is.
* `heading?_of_le`, `heading?_of_lt`: when a heading has a box, and what it is refused for.
* `rows_heading`: the rows of a box.
* `hasLines_banner`: the lines of the heading at both ends of a script.
* `SameFailures`: computations that fail alike.
* `Script.text_boxes`: where the boxes of a script stand.
* `boxes_well_formed`: names that fit have no influence on whether there is a script, and all its boxes are well formed;
  names that are too long are refused.
-/

namespace Justfile

open Shell

namespace Text

theorem length_headingLine (l : List Char) : ("# " ++ String.ofList l).length = l.length + 2 := by
  rw [String.length_append, @String.length_ofList l, Nat.add_comm]
  rfl

/-- All lines of a heading leave room for the end of a row. -/
def Fits (s : String) : Prop :=
  ∀ line ∈ headingLines s, line.length + 2 ≤ boxWidth

/-- A line of a heading is longer than a box. -/
def Overlong (s : String) : Prop :=
  ∃ line ∈ headingLines s, boxWidth < line.length

theorem fits_iff {s : String} : Fits s ↔ ∀ l ∈ splitLines s.toList, l.length + 4 ≤ boxWidth := by
  simp only [Fits, headingLines, List.forall_mem_map, length_headingLine, Nat.add_assoc]

theorem overlong_iff {s : String} : Overlong s ↔ ∃ l ∈ splitLines s.toList, boxWidth < l.length + 2 := by
  simp only [Overlong, headingLines, List.mem_map, exists_exists_and_eq_and, length_headingLine]

-- The lengths of lists of characters are quick to decide.
instance (s : String) : Decidable (Fits s) :=
  decidable_of_iff' _ fits_iff

instance (s : String) : Decidable (Overlong s) :=
  decidable_of_iff' _ overlong_iff

/-- A box whose rows are all as wide as its border. -/
def WellBoxed (box : String) : Prop :=
  ∃ rs, rowsString box = border :: (rs ++ [border]) ∧ ∀ r ∈ rs, r.length = border.length

variable {line s : String}

theorem length_border : border.length = 89 := by
  rw [border, String.length_ofList, List.length_replicate]
  rfl

section Padding

/-- **The width of a row.** -/
theorem length_padded (line : String) : (padded .box line).length = max boxWidth (line.length + 2) := by
  have hend : " #".length = 2 := rfl
  simp only [padded, Padding.box, String.length_append, String.length_ofList, List.length_replicate, hend]
  omega

theorem pad_of_le (h : line.length ≤ boxWidth) : pad .box line = .ok (padded .box line) := by
  refine if_neg ?_
  rw [decide_eq_false (by simpa [Padding.box] using h)]
  decide

theorem pad_of_lt (h : boxWidth < line.length) : pad .box line = .error (.lineTooLong line boxWidth) := by
  refine if_pos ?_
  rw [decide_eq_true (by simpa [Padding.box] using h)]
  rfl

end Padding

section Headings

theorem headingLines_of_hasLines {ls : List (List Char)} (h : HasLines s.toList ls) :
    headingLines s = ls.map fun l => "# " ++ String.ofList l := by
  rw [headingLines, hasLines_iff.1 h]

theorem le_of_not_overlong (h : ¬ Overlong s) : ∀ line ∈ headingLines s, line.length ≤ boxWidth :=
  fun line hline => Nat.le_of_not_lt fun hlong => h ⟨line, hline, hlong⟩

theorem Fits.not_overlong (h : Fits s) : ¬ Overlong s := by
  rintro ⟨line, hline, hlong⟩
  have := h line hline
  omega

theorem heading?_of_le (h : ∀ line ∈ headingLines s, line.length ≤ boxWidth) : heading? s = .ok (heading s) := by
  rw [heading?, mapM_eq_ok_map fun line hline => pad_of_le (h line hline)]
  rfl

/-- **A heading is refused for its first line that is too long.** -/
theorem heading?_of_lt {before after : List String} (hlines : headingLines s = before ++ line :: after)
    (hbefore : ∀ b ∈ before, b.length ≤ boxWidth) (h : boxWidth < line.length) :
    heading? s = .error (.lineTooLong line boxWidth) := by
  rw [heading?, hlines, mapM_eq_error (fun b hb => pad_of_le (hbefore b hb)) (pad_of_lt h)]
  rfl

/-- The first line that is too long. -/
theorem exists_first_lt {lines : List String} (h : ∃ line ∈ lines, boxWidth < line.length) :
    ∃ before line after, lines = before ++ line :: after ∧ (∀ b ∈ before, b.length ≤ boxWidth) ∧
      boxWidth < line.length := by
  obtain ⟨line, hline, hlong⟩ := h
  cases hfind : lines.find? (fun line => boxWidth < line.length) with
  | none => exact absurd hlong (by simpa using List.find?_eq_none.1 hfind line hline)
  | some first =>
    obtain ⟨hfirst, before, after, hsplit, hbefore⟩ := List.find?_eq_some_iff_append.1 hfind
    exact ⟨before, first, after, hsplit, fun b hb => by simpa using hbefore b hb, by simpa using hfirst⟩

end Headings

section Rows

/-- The rows of texts that are joined by line feeds, before more rows. -/
theorem rowsFrom_intercalate {rs : List String} (hne : rs ≠ []) (h : ∀ r ∈ rs, '\n' ∉ r.toList) (rest : List Char) :
    rowsFrom [] (("\n".intercalate rs).toList ++ '\n' :: rest) = rs.map String.toList ++ rowsFrom [] rest := by
  induction rs with
  | nil => exact absurd rfl hne
  | cons r rs ih =>
    rw [List.forall_mem_cons] at h
    cases rs with
    | nil =>
      rw [String.intercalate_singleton, rowsFrom_append_newline h.1]
      rfl
    | cons r' rs =>
      have hfeed : "\n".toList = ['\n'] := rfl
      rw [String.intercalate_cons_cons, String.toList_append, String.toList_append, hfeed, List.append_assoc,
        List.append_assoc, List.singleton_append, rowsFrom_append_newline h.1, ih (List.cons_ne_nil _ _) h.2]
      rfl

theorem newline_notMem_border : '\n' ∉ border.toList := by
  rw [border, String.toList_ofList, List.mem_replicate]
  exact fun h => absurd h.2 (by decide)

theorem rows_framed {rs : List String} (hne : rs ≠ []) (h : ∀ r ∈ rs, '\n' ∉ r.toList) :
    rowsString (framed rs) = border :: (rs ++ [border]) := by
  have hchars : (framed rs).toList =
      border.toList ++ '\n' :: (("\n".intercalate rs).toList ++ '\n' :: border.toList) := by
    have hfeed : "\n".toList = ['\n'] := rfl
    simp only [framed, String.toList_append, hfeed, List.append_assoc, List.cons_append, List.nil_append]
  rw [rowsString, rows, hchars, rowsFrom_append_newline newline_notMem_border, rowsFrom_intercalate hne h,
    rowsFrom_of_notMem newline_notMem_border]
  simp [Function.comp_def, String.ofList_toList]

theorem newline_notMem_padded (h : '\n' ∉ line.toList) : '\n' ∉ (padded .box line).toList := by
  have hend : '\n' ∉ Padding.box.terminator.toList := by decide
  simp only [padded, String.toList_append, String.toList_ofList, List.mem_append, List.mem_replicate, not_or]
  exact ⟨⟨h, fun hblank => absurd hblank.2 (by decide)⟩, hend⟩

/-- **The rows of a box**: between two borders, the padded lines of its heading. -/
theorem rows_heading (hne : s ≠ "") :
    rowsString (heading s) = border :: ((headingLines s).map (padded .box) ++ [border]) := by
  have hlines : HasLines s.toList (splitLines s.toList) := hasLines_iff.2 rfl
  have hsome : headingLines s ≠ [] := by
    rw [headingLines_of_hasLines hlines, Ne, List.map_eq_nil_iff]
    intro hnil
    rw [hnil] at hlines
    generalize hcs : s.toList = cs at hlines
    cases hlines
    exact hne (String.toList_eq_nil_iff.1 hcs)
  refine rows_framed (by simpa using hsome) fun r hr => ?_
  obtain ⟨line, hline, rfl⟩ := List.mem_map.1 hr
  rw [headingLines_of_hasLines hlines] at hline
  obtain ⟨l, hl, rfl⟩ := List.mem_map.1 hline
  refine newline_notMem_padded ?_
  rw [String.toList_append, @String.toList_ofList l, List.mem_append, not_or]
  exact ⟨by decide, fun hmem => absurd (hlines.unbroken l hl _ hmem) (by decide)⟩

/-- **A heading that fits has a box whose rows are as wide as its border.** -/
theorem wellBoxed_heading (hne : s ≠ "") (h : Fits s) : WellBoxed (heading s) := by
  refine ⟨_, rows_heading hne, fun r hr => ?_⟩
  obtain ⟨line, hline, rfl⟩ := List.mem_map.1 hr
  rw [length_padded, length_border, Nat.max_eq_left (h line hline)]
  rfl

end Rows

end Text

namespace Script

open Text

section Banner

/-- A fixed line before more lines. -/
theorem hasLines_cons {l rest : List Char} {ls : List (List Char)} (hl : l.all (fun c => !isLineBreak c) = true)
    (h : HasLines rest ls) : HasLines (l ++ '\n' :: rest) (l :: ls) :=
  .ended (fun c hc => by simpa using List.all_eq_true.1 hl c hc) (.newline rest) h

/-- **The lines of the banner.** -/
theorem hasLines_banner (edition : Edition) (outfile : String) : HasLines (bannerHeading edition outfile).toList
    ([] :: "This script was auto-generated from a Justfile by just.sh.".toList :: [] ::
      (splitLines (editionLine edition).toList ++ ("https://github.com/jstrieb/just.sh".toList :: [] ::
        (splitLines (nameLine outfile).toList ++ [[]])))) := by
  have hlast : ∀ s t : String, t.toList.getLast? = some '.' →
      ∃ c ∈ (s ++ t).toList.getLast?, isLineBreak c = false := by
    intro s t ht
    have hne : t.toList ≠ [] := by
      intro hnil
      rw [hnil] at ht
      cases ht
    refine ⟨'.', ?_, by decide⟩
    rw [String.toList_append, List.getLast?_append_of_ne_nil _ hne]
    exact ht
  have hname : HasLines ((nameLine outfile).toList ++ '\n' :: ['\n']) (splitLines (nameLine outfile).toList ++ [[]]) :=
    (hasLines_iff.2 rfl).append (hlast _ _ (by decide)) (hasLines_iff.2 rfl)
  have hurl := hasLines_cons (l := "https://github.com/jstrieb/just.sh".toList) (by decide)
    (hasLines_cons (l := []) rfl hname)
  have hmade : HasLines (editionLine edition).toList (splitLines (editionLine edition).toList) := hasLines_iff.2 rfl
  have hedition := hmade.append (hlast _ _ (by decide)) hurl
  have hall := hasLines_cons (l := []) rfl
    (hasLines_cons (l := "This script was auto-generated from a Justfile by just.sh.".toList) (by decide)
      (hasLines_cons (l := []) rfl hedition))
  have hfirst : "\nThis script was auto-generated from a Justfile by just.sh.\n\n".toList =
      '\n' :: ("This script was auto-generated from a Justfile by just.sh.".toList ++ ['\n', '\n']) := by
    decide +kernel
  have hsecond : "\nhttps://github.com/jstrieb/just.sh\n\n".toList =
      '\n' :: ("https://github.com/jstrieb/just.sh".toList ++ ['\n', '\n']) := by decide +kernel
  have hthird : "\n\n".toList = ['\n', '\n'] := rfl
  have hchars : (bannerHeading edition outfile).toList = [] ++ '\n' ::
      ("This script was auto-generated from a Justfile by just.sh.".toList ++ '\n' :: ([] ++ '\n' ::
        ((editionLine edition).toList ++ '\n' :: ("https://github.com/jstrieb/just.sh".toList ++ '\n' :: ([] ++ '\n' ::
          ((nameLine outfile).toList ++ '\n' :: ['\n'])))))) := by
    unfold bannerHeading
    simp only [String.toList_append, hfirst, hsecond, hthird, List.append_assoc, List.cons_append, List.nil_append]
  rw [hchars]
  exact hall

theorem bannerHeading_ne_empty {edition : Edition} {outfile : String} : bannerHeading edition outfile ≠ "" := by
  unfold bannerHeading
  intro hempty
  have hlast := (String.append_eq_empty_iff.1 hempty).2
  exact absurd hlast (by decide)

/-- The lines of the banner with their number signs. Besides the two that depend on something they are short. -/
theorem exists_bannerLines : ∃ start middle last : List String, (∀ line ∈ start ++ (middle ++ last), line.length ≤ 60) ∧
    ∀ edition outfile, headingLines (bannerHeading edition outfile) = start ++ (headingLines (editionLine edition) ++
      (middle ++ (headingLines (nameLine outfile) ++ last))) := by
  refine ⟨[[], "This script was auto-generated from a Justfile by just.sh.".toList, []].map fun l =>
      "# " ++ String.ofList l,
    ["https://github.com/jstrieb/just.sh".toList, []].map fun l => "# " ++ String.ofList l,
    [[]].map fun l => "# " ++ String.ofList l, ?_, fun edition outfile => ?_⟩
  · rw [← List.map_append, ← List.map_append, List.forall_mem_map]
    simp only [length_headingLine]
    decide
  · rw [headingLines_of_hasLines (hasLines_banner edition outfile)]
    simp only [headingLines, List.map_cons, List.map_append, List.map_nil, List.cons_append, List.nil_append]

variable {edition : Edition} {outfile : String}

/-- What holds of short lines and of the two that depend on something holds of all lines of the banner. -/
theorem forall_bannerLines {P : String → Prop} (hshort : ∀ line : String, line.length ≤ 60 → P line)
    (hedition : ∀ line ∈ headingLines (editionLine edition), P line)
    (hname : ∀ line ∈ headingLines (nameLine outfile), P line) :
    ∀ line ∈ headingLines (bannerHeading edition outfile), P line := by
  obtain ⟨start, middle, last, hfixed, hlines⟩ := exists_bannerLines
  intro line hline
  rw [hlines] at hline
  simp only [List.mem_append] at hline hfixed
  rcases hline with hline | hline | hline | hline | hline
  · exact hshort line (hfixed line (.inl hline))
  · exact hedition line hline
  · exact hshort line (hfixed line (.inr (.inl hline)))
  · exact hname line hline
  · exact hshort line (hfixed line (.inr (.inr hline)))

theorem fits_banner (hedition : Fits (editionLine edition)) (hname : Fits (nameLine outfile)) :
    Fits (bannerHeading edition outfile) :=
  forall_bannerLines (fun _ h => Nat.le_trans (Nat.add_le_add_right h 2) (by decide)) hedition hname

theorem bannerText_of_le (hedition : ¬ Overlong (editionLine edition)) (hname : ¬ Overlong (nameLine outfile)) :
    bannerText edition outfile = .ok (heading (bannerHeading edition outfile)) := by
  unfold bannerText
  exact heading?_of_le (forall_bannerLines (fun _ h => Nat.le_trans h (by decide)) (le_of_not_overlong hedition)
    (le_of_not_overlong hname))

/-- Where the line about the edition is too long, the banner is refused for it, whatever the output file. -/
theorem bannerText_of_edition (h : Overlong (editionLine edition)) :
    ∃ line, ∀ outfile, bannerText edition outfile = .error (.lineTooLong line boxWidth) := by
  obtain ⟨start, middle, last, hshort, hlines⟩ := exists_bannerLines
  obtain ⟨before, line, after, hsplit, hbefore, hline⟩ := exists_first_lt h
  have hwidth : boxWidth = 89 := rfl
  refine ⟨line, fun outfile => ?_⟩
  have hall : headingLines (bannerHeading edition outfile) = (start ++ before) ++ line ::
      (after ++ (middle ++ (headingLines (nameLine outfile) ++ last))) := by
    rw [hlines, hsplit]
    simp only [List.append_assoc, List.cons_append]
  unfold bannerText
  -- Before the line there are fixed lines, and lines about the edition that are not too long.
  refine heading?_of_lt hall (fun b hb => ?_) hline
  rcases List.mem_append.1 hb with hb | hb
  · have := hshort b (List.mem_append_left _ hb)
    omega
  · exact hbefore b hb

/-- **A name that is too long is refused.** -/
theorem bannerText_of_name (edition : Edition) (h : Overlong (nameLine outfile)) :
    ∃ line ∈ headingLines (bannerHeading edition outfile), boxWidth < line.length ∧
      bannerText edition outfile = .error (.lineTooLong line boxWidth) := by
  obtain ⟨start, middle, last, -, hlines⟩ := exists_bannerLines
  obtain ⟨l, hl, hlong⟩ := h
  have hmem : l ∈ headingLines (bannerHeading edition outfile) := by
    rw [hlines]
    simp only [List.mem_append]
    exact .inr (.inr (.inr (.inl hl)))
  obtain ⟨before, line, after, hsplit, hbefore, hline⟩ := exists_first_lt ⟨l, hmem, hlong⟩
  refine ⟨line, ?_, hline, ?_⟩
  · rw [hsplit]
    exact List.mem_append_right _ List.mem_cons_self
  · unfold bannerText
    exact heading?_of_lt hsplit hbefore hline

end Banner

end Script

namespace Shell

variable {α β : Type}

/-- Two computations that fail from the same tables, and for the same reason. -/
def SameFailures (m m' : Naming α) : Prop :=
  ∀ t f, m.result t = .error f ↔ m'.result t = .error f

theorem SameFailures.pure (a a' : α) : SameFailures (Pure.pure a) (Pure.pure a') :=
  fun _ _ => ⟨nofun, nofun⟩

theorem SameFailures.bind (m : Naming α) {k k' : α → Naming β} (h : ∀ a, SameFailures (k a) (k' a)) :
    SameFailures (m >>= k) (m >>= k') := by
  intro t f
  cases hr : m.result t with
  | error e => rw [(Naming.bind_of_error k hr).2, (Naming.bind_of_error k' hr).2]
  | ok a =>
    rw [(Naming.bind_of_ok k hr).2, (Naming.bind_of_ok k' hr).2]
    exact h a _ f

end Shell

namespace Script

open Text

/-- **Names that fit fail alike**: below the banner, nothing depends on it. -/
theorem sameFailures_ofProgram (edition : Edition) (justfile : String) (p : Program) {outfile other : String}
    (h : Fits (nameLine outfile)) (h' : Fits (nameLine other)) :
    SameFailures (ofProgram edition outfile justfile p) (ofProgram edition other justfile p) := by
  -- The line about the edition stands before the one with the name: if it is too long, no name matters.
  by_cases hedition : Overlong (editionLine edition)
  · obtain ⟨line, hline⟩ := bannerText_of_edition hedition
    have hfails : ∀ out t, (ofProgram edition out justfile p).result t = .error (.lineTooLong line boxWidth) := by
      intro out t
      have hbanner : (Naming.ofExcept (bannerText edition out)).result t = .error (.lineTooLong line boxWidth) :=
        hline out
      exact (Naming.bind_of_error _ hbanner).2
    intro t f
    rw [hfails, hfails]
  · have hbelow : ∀ out, Fits (nameLine out) → ∃ banner, bannerText edition out = .ok banner :=
      fun out hout => ⟨_, bannerText_of_le hedition hout.not_overlong⟩
    obtain ⟨banner, hbanner⟩ := hbelow outfile h
    obtain ⟨banner', hbanner'⟩ := hbelow other h'
    intro t f
    have hleft : (Naming.ofExcept (bannerText edition outfile)).result t = .ok banner := hbanner
    have hright : (Naming.ofExcept (bannerText edition other)).result t = .ok banner' := hbanner'
    unfold ofProgram
    rw [(Naming.bind_of_ok _ hleft).2, (Naming.bind_of_ok _ hright).2]
    refine SameFailures.bind _ (fun _ => .bind _ fun _ => .bind _ fun _ => .bind _ fun _ => .bind _ fun _ =>
      .bind _ fun _ => .bind _ fun _ => .bind _ fun _ => ?_) t f
    exact .pure _ _

/-- The headings of the boxes of a script, in order. -/
def boxHeadings (p : Program) (banner : String) : List String :=
  banner :: ((if p.helpers.values.isEmpty then [] else ["Internal functions"]) ++
    ["Variables", "Recipes", "Helper functions", "Main entrypoint", banner])

theorem wellBoxed_boxHeadings (p : Program) {banner : String} (hne : banner ≠ "") (h : Fits banner) :
    ∀ heading ∈ boxHeadings p banner, WellBoxed (Text.heading heading) := by
  have hfixed : ∀ heading ∈ ["Internal functions", "Variables", "Recipes", "Helper functions", "Main entrypoint"],
      heading ≠ "" ∧ Fits heading := by decide +kernel
  have hall : ∀ heading ∈ boxHeadings p banner, heading ≠ "" ∧ Fits heading := by
    unfold boxHeadings
    cases p.helpers.values.isEmpty <;> simp_all
  exact fun heading hheading => wellBoxed_heading (hall heading hheading).1 (hall heading hheading).2

/-- Boxes with a text before each. -/
def woven (before headings : List String) : String :=
  String.join (List.zipWith (fun text h => text ++ Text.heading h) before headings)

/-- **Where the boxes of a script stand.** -/
theorem text_boxes {s : Script} {p : Program} {banner : String} (hbanner : s.banner = Text.heading banner)
    (hhelpers : s.helpers = p.helpers.values) : ∃ before last, before.length = (boxHeadings p banner).length ∧
      s.text = woven before (boxHeadings p banner) ++ last := by
  -- Each section begins with its box. Just the one of the helpers may be missing, with all of the section.
  obtain ⟨v, hv⟩ : ∃ v, s.variableText = Text.heading "Variables" ++ v := by
    unfold variableText
    simp only [String.append_assoc]
    exact ⟨_, rfl⟩
  obtain ⟨r, hr⟩ : ∃ r, s.recipeText = "\n" ++ (Text.heading "Recipes" ++ r) := by
    unfold recipeText
    simp only [String.append_assoc]
    exact ⟨_, rfl⟩
  obtain ⟨c, hc⟩ : ∃ c, s.commonText = "\n" ++ (Text.heading "Helper functions" ++ c) := by
    unfold commonText
    simp only [String.append_assoc]
    exact ⟨_, rfl⟩
  unfold boxHeadings woven text
  rw [← hhelpers, hbanner, hv, hr, hc]
  cases hempty : s.helpers.isEmpty with
  | true =>
    have hnone : s.helperText = "" := by
      unfold helperText
      rw [hempty]
      rfl
    refine ⟨["#!/bin/sh\n\n", "\n\n" ++ (strictText ++ "\n\n"), v ++ ("\n\n" ++ "\n"), r ++ ("\n\n" ++ "\n"),
      c ++ "\n\n\n", "\n\n" ++ (entryText s.version s.cases s.default ++ "\n\n\n")], "\n\n", rfl, ?_⟩
    rw [hnone]
    simp only [if_true, List.nil_append, List.zipWith_cons_cons, List.zipWith_nil_right, String.join_cons,
      String.join_nil, String.append_assoc, String.append_empty]
  | false =>
    obtain ⟨h, hh⟩ : ∃ h, s.helperText = "\n\n" ++ (Text.heading "Internal functions" ++ h) := by
      unfold helperText
      rw [hempty]
      simp only [Bool.false_eq_true, if_false, String.append_assoc]
      exact ⟨_, rfl⟩
    refine ⟨["#!/bin/sh\n\n", "\n\n" ++ (strictText ++ "\n\n"), h ++ "\n\n", v ++ ("\n\n" ++ "\n"),
      r ++ ("\n\n" ++ "\n"), c ++ "\n\n\n", "\n\n" ++ (entryText s.version s.cases s.default ++ "\n\n\n")],
      "\n\n", rfl, ?_⟩
    rw [hh]
    simp only [Bool.false_eq_true, if_false, List.cons_append, List.nil_append, List.zipWith_cons_cons,
      List.zipWith_nil_right, String.join_cons, String.join_nil, String.append_assoc, String.append_empty]

end Script

open Text in
/-- **The boxes of a script for every output file.** Let items make a program. If the line that names the output file
fits into the banner, the name has no influence on whether there is a script: compiling fails for the same reasons as
with any other name that fits. The script, if there is one, has a box with the banner at both ends and one before each
section, and if the line about the edition fits too, every row between the borders of these boxes is as wide as the
border, 89 characters. If a line with the name is longer than that, compiling is refused for a line that is too long. -/
theorem boxes_well_formed {items : List Item} {p : Program} (hp : (Program.ofItems items).result .empty = .ok p)
    (edition : Edition) (outfile justfile : String) :
    (Fits (Script.nameLine outfile) →
      (∀ other, Fits (Script.nameLine other) → ∀ f, (compileItems edition outfile justfile items).script = .error f ↔
        (compileItems edition other justfile items).script = .error f) ∧
      (Fits (Script.editionLine edition) → ∀ script,
        (compileItems edition outfile justfile items).script = .ok script →
          (∃ before last, before.length = (Script.boxHeadings p (Script.bannerHeading edition outfile)).length ∧
            script = Script.woven before (Script.boxHeadings p (Script.bannerHeading edition outfile)) ++ last) ∧
          border.length = 89 ∧
          ∀ h ∈ Script.boxHeadings p (Script.bannerHeading edition outfile), WellBoxed (heading h))) ∧
    (Overlong (Script.nameLine outfile) → ∃ line ∈ headingLines (Script.bannerHeading edition outfile),
      boxWidth < line.length ∧
        (compileItems edition outfile justfile items).script = .error (.lineTooLong line boxWidth)) := by
  refine ⟨fun hname => ⟨fun other hother f => ?_, fun hedition script hscript => ?_⟩, fun hname => ?_⟩
  · rw [compileItems_eq_error_iff hp, compileItems_eq_error_iff hp]
    exact Script.sameFailures_ofProgram edition justfile p hname hother _ f
  · obtain ⟨s, hs, rfl⟩ := (compileItems_eq_ok_iff hp).1 hscript
    have hassembled := Script.assembled_of_ofProgram hs
    have hbanner := hassembled.banner
    rw [Script.bannerText_of_le hedition.not_overlong hname.not_overlong] at hbanner
    exact ⟨Script.text_boxes (Except.ok.inj hbanner).symm hassembled.helpers, length_border,
      Script.wellBoxed_boxHeadings p Script.bannerHeading_ne_empty (Script.fits_banner hedition hname)⟩
  · obtain ⟨line, hline, hlong, hbanner⟩ := Script.bannerText_of_name edition hname
    have hresult : (Naming.ofExcept (Script.bannerText edition outfile)).result
        ((Program.ofItems items).table .empty) = .error (.lineTooLong line boxWidth) := hbanner
    exact ⟨line, hline, hlong, (compileItems_eq_error_iff hp).2 (Naming.bind_of_error _ hresult).2⟩

/-- A justfile with a variable whose value is made by a function, which needs a helper. -/
def shoutText : String := "x := uppercase(\"a\")"

/-- What is read from that. -/
def shoutItems : List Item :=
  [⟨[], .assignment "x" (.call "uppercase" [.text "a"])⟩]

/-- An output file with a name of some length. -/
def fileOf (length : Nat) : String := String.ofList (List.replicate length 'a')

/-- The justfile can be compiled to the usual output file. -/
theorem compileItems_shout : ∃ p script, (Program.ofItems shoutItems).result .empty = .ok p ∧
    (compileItems ⟨"2000-01-02", "unknown"⟩ "just.sh" shoutText shoutItems).script = .ok script := by
  have hparse : parse shoutText = .ok shoutItems := rfl
  obtain ⟨script, hscript⟩ := compile_succeeds isDate_sample hparse rfl (by decide +kernel) rfl
  obtain ⟨p, s, hp, -, -⟩ := compile_eq_ok hparse hscript
  exact ⟨p, script, hp, (compile_eq_compileItems hparse) ▸ hscript⟩

open Text in
/-- A name of 36 characters fits, and one of 39 is too long. -/
theorem boxes_well_formed_lengths : ∃ p script, (Program.ofItems shoutItems).result .empty = .ok p ∧
    Fits (Script.nameLine (fileOf 36)) ∧ Fits (Script.editionLine ⟨"2000-01-02", "unknown"⟩) ∧
    (compileItems ⟨"2000-01-02", "unknown"⟩ (fileOf 36) shoutText shoutItems).script = .ok script ∧
    (∃ before last, before.length =
        (Script.boxHeadings p (Script.bannerHeading ⟨"2000-01-02", "unknown"⟩ (fileOf 36))).length ∧
      script =
        Script.woven before (Script.boxHeadings p (Script.bannerHeading ⟨"2000-01-02", "unknown"⟩ (fileOf 36))) ++
          last) ∧
    (∀ h ∈ Script.boxHeadings p (Script.bannerHeading ⟨"2000-01-02", "unknown"⟩ (fileOf 36)),
      WellBoxed (heading h)) ∧
    Overlong (Script.nameLine (fileOf 39)) ∧ ∃ line, boxWidth < line.length ∧
      (compileItems ⟨"2000-01-02", "unknown"⟩ (fileOf 39) shoutText shoutItems).script =
        .error (.lineTooLong line boxWidth) := by
  obtain ⟨p, usual, hp, husual⟩ := compileItems_shout
  have hfits : Fits (Script.nameLine (fileOf 36)) := by decide +kernel
  have hedition : Fits (Script.editionLine ⟨"2000-01-02", "unknown"⟩) := by decide +kernel
  have hlong : Overlong (Script.nameLine (fileOf 39)) := by decide +kernel
  obtain ⟨hsame, hboxes⟩ := (boxes_well_formed hp ⟨"2000-01-02", "unknown"⟩ (fileOf 36) shoutText).1 hfits
  obtain ⟨line, -, hline, hrefused⟩ :=
    (boxes_well_formed hp ⟨"2000-01-02", "unknown"⟩ (fileOf 39) shoutText).2 hlong
  cases hscript : (compileItems ⟨"2000-01-02", "unknown"⟩ (fileOf 36) shoutText shoutItems).script with
  | error f =>
    have hfits' : Fits (Script.nameLine "just.sh") := by decide +kernel
    cases husual.symm.trans ((hsame "just.sh" hfits' f).1 hscript)
  | ok script =>
    obtain ⟨hplaces, -, hwell⟩ := hboxes hedition script hscript
    exact ⟨p, script, hp, hfits, hedition, rfl, hplaces, hwell, hlong, line, hline, hrefused⟩

/-- **The name of the output file can make compiling fail.** -/
theorem compileItems_longName : ∃ p script line, (Program.ofItems shoutItems).result .empty = .ok p ∧
    (compileItems ⟨"2000-01-02", "unknown"⟩ "just.sh" shoutText shoutItems).script = .ok script ∧
    (compileItems ⟨"2000-01-02", "unknown"⟩ (fileOf 39) shoutText shoutItems).script =
      .error (.lineTooLong line 89) := by
  obtain ⟨p, usual, hp, husual⟩ := compileItems_shout
  have hlong : Text.Overlong (Script.nameLine (fileOf 39)) := by decide +kernel
  obtain ⟨line, -, -, hbanner⟩ := Script.bannerText_of_name ⟨"2000-01-02", "unknown"⟩ hlong
  have hresult : (Naming.ofExcept (Script.bannerText ⟨"2000-01-02", "unknown"⟩ (fileOf 39))).result
      ((Program.ofItems shoutItems).table .empty) = .error (.lineTooLong line 89) := hbanner
  exact ⟨p, usual, line, hp, husual, (compileItems_eq_error_iff hp).2 (Naming.bind_of_error _ hresult).2⟩

end Justfile
