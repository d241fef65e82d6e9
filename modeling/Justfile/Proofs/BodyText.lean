import Justfile.Proofs.Headings
import Justfile.Proofs.RoundTrip

/-!
# No text of a body is lost

A recipe with one line in its body is read as that line: its lead and its pieces of text together are
what is written, whatever looks like a comment, a quotation or a variable in it. Only a line that is
nothing but a lead is refused, because after its lead a line needs text.

* `oneLine_prepared`: what is left to read of such a justfile.
* `item_of_recipe`: a recipe without attributes is an item.
* `bareLead_unreadable`: a lead alone is no line.
* `parse_bodyText`: the text of the line, for every line.
-/

namespace Justfile

open Justfile.Parsing Justfile.Parsing.Parser

/-- A text for one line of a body: no line end, no backslash, no doubled braces, and no blanks at its
ends. -/
structure OneLine (w : String) : Prop where
  chars : ∀ c ∈ w.toList, c ≠ '\r' ∧ c ≠ '\n' ∧ c ≠ '\\'
  braces : ¬ "\x7b\x7b".toList <:+: w.toList
  first : ∃ c ∈ w.toList.head?, Text.isBlank c = false
  last : ∃ c ∈ w.toList.getLast?, Text.isBlank c = false

/-- The leads of a line. -/
def bareLeads : List String :=
  ["@", "-", "@-", "-@"]

/-- The justfile with one recipe whose body is one line. -/
def oneLineSource (w : String) : String :=
  "r:\n    " ++ w ++ "\n"

/-- The recipe with one line. -/
def oneLineRecipe (l : Line) : Recipe where
  echo := true
  name := "r"
  parameters := []
  variadic := none
  before := []
  after := []
  body := [l]

theorem headed_oneLineRecipe (l : Line) : (oneLineRecipe l).Headed where
  name := (⟨'r', [], rfl, rfl, rfl⟩ : IsName "r")
  parameters := ⟨[], [], rfl, fun p hp => absurd hp List.not_mem_nil, fun p hp => absurd hp List.not_mem_nil⟩
  variadic := fun v hv => by cases hv
  variadicDefault := fun v hv => by cases hv
  before := fun d hd => absurd hd List.not_mem_nil
  after := fun d hd => absurd hd List.not_mem_nil

theorem heading_oneLineRecipe (l : Line) : (oneLineRecipe l).heading = ['r', ':'] := by
  simp [oneLineRecipe, Recipe.heading, Recipe.variadicText, Recipe.afterText]

/-- What is asked of a line can be checked. -/
theorem oneLine_of_check {w : String} {first last : Char}
    (hchars : w.toList.all (fun c => c != '\r' && c != '\n' && c != '\\') = true)
    (hbraces : ¬ "\x7b\x7b".toList <:+: w.toList) (hfirst : w.toList.head? = some first)
    (hlast : w.toList.getLast? = some last) (hf : Text.isBlank first = false)
    (hl : Text.isBlank last = false) : OneLine w := by
  refine ⟨fun c hc => ?_, hbraces, ⟨first, hfirst, hf⟩, ⟨last, hlast, hl⟩⟩
  have hc' := List.all_eq_true.1 hchars c hc
  simp only [Bool.and_eq_true, bne_iff_ne] at hc'
  exact ⟨hc'.1.1, hc'.1.2, hc'.2⟩

theorem OneLine.plain {w : String} (h : OneLine w) : Plain w.toList := by
  refine ⟨fun c hc => ?_, h.braces⟩
  obtain ⟨hcr, hlf, -⟩ := h.chars c hc
  simp [startsNewline, hcr, hlf]

/-- The justfile with one line up to the line. -/
def oneLineStart : List Char :=
  ['r', ':', '\n', ' ', ' ', ' ', ' ']

/-- What is left to read of a justfile with one line: the line, with two line feeds after it. -/
theorem oneLine_prepared {w : String} (h : OneLine w) :
    prepare (oneLineSource w).toList = oneLineStart ++ (w.toList ++ ['\n', '\n']) := by
  obtain ⟨d, hd, hblank⟩ := h.last
  have htext : (oneLineSource w).toList = (oneLineStart ++ w.toList) ++ ['\n'] := by
    unfold oneLineSource
    rw [String.toList_append, String.toList_append]
    rfl
  have hsealed : Sealed ((oneLineStart ++ w.toList) ++ ['\n']) := by
    have hw : Sealed w.toList := sealed_of_not_mem fun hc => (h.chars _ hc).2.2 rfl
    exact ((sealed_of_not_mem (by decide)).append hw).append (sealed_of_not_mem (by decide))
  have hend : Avoids Text.isBlank (oneLineStart ++ w.toList).reverse := by
    intro c hc
    rw [List.reverse_append, List.head?_append, List.head?_reverse, Option.mem_def.1 hd] at hc
    cases hc
    exact hblank
  have hblanks : ∀ c ∈ ['\n'], Text.isBlank c = true := by
    intro c hc
    rw [List.mem_singleton.1 hc]
    rfl
  rw [htext, prepare_uncontinued ['\n'] hsealed.uncontinued (avoids_cons rfl _) hend hblanks, List.append_assoc]

namespace Parsing

variable {ω : Type} [Listener ω] {depth : Nat} {cs rest : List Char}

/-- A recipe without attributes before it is an item. -/
theorem item_of_recipe {r : Recipe} (hopen : Opens cs) (hbracket : Avoids (· == '[') cs)
    (h : Reads (recipe depth : Parser ω Recipe) cs r rest) :
    Reads (item depth : Parser ω Item) cs ⟨[], .recipe r⟩ rest := by
  rw [← hopen.dropWhile] at hbracket
  have hattributes := attributes_reads (ω := ω) hbracket
  rw [hopen.dropWhile] at hattributes
  exact .traced (hattributes.bind (.bind (.orElse_left (h.map _)) (.pure _ _)))

/-- **The line is read as its lead and pieces of its text.** -/
theorem oneLine_reads {w : String} (h : OneLine w) (hne : (leadOf w.toList).2 ≠ []) :
    ∃ texts : List String, Reads (file (depth + 1) : Parser ω (List Item))
      (oneLineStart ++ (w.toList ++ ['\n', '\n']))
      [⟨[], .recipe (oneLineRecipe ⟨(leadOf w.toList).1, texts.map .text⟩)⟩] [] ∧
      texts.flatMap String.toList = (leadOf w.toList).2 := by
  obtain ⟨texts, hline, hconcat⟩ := lastLine_reads (ω := ω) (depth + 1) h.plain hne
  refine ⟨texts, ?_, hconcat⟩
  set l : Line := ⟨(leadOf w.toList).1, texts.map .text⟩
  set body := w.toList ++ ['\n', '\n'] with hbodyText
  have hspace : Avoids isSpace body := by
    obtain ⟨c, hc, hblank⟩ := h.first
    intro x hx
    rw [hbodyText, List.head?_append, Option.mem_def.1 hc] at hx
    cases hx
    exact isSpace_of_not_blank hblank
  -- the only line takes the rest of the text, so there is no second one
  have hlines : Repeats (indentedLine (depth + 1) : Parser ω Line) (' ' :: ' ' :: ' ' :: ' ' :: body) [l] [] := by
    have hfirst : Reads (indentedLine (depth + 1) : Parser ω Line) (' ' :: ' ' :: ' ' :: ' ' :: body) l [] :=
      (Reads.word "    " body).bind hline
    have hlast : Refuses (indentedLine (depth + 1) : Parser ω Line) [] :=
      .bind (word_refuses_of_avoids "    " rfl (avoids_nil _))
    exact .step hfirst (Nat.succ_pos _) (.stop hlast)
  have hskip : skipNewlines (' ' :: ' ' :: ' ' :: ' ' :: body) = ' ' :: ' ' :: ' ' :: ' ' :: body := rfl
  obtain ⟨d, hend⟩ := lineEnd_newlines (ω := ω) (by rw [hskip]; exact avoids_cons rfl _)
  have hrecipe : Reads (recipe (depth + 1) : Parser ω Recipe) (oneLineStart ++ body) (oneLineRecipe l) [] := by
    have hread := recipe_reads (headed_oneLineRecipe l) hend (body_reads hspace hlines).optional rfl
      (avoids_nil _)
    rw [heading_oneLineRecipe] at hread
    exact hread
  have hitem := item_of_recipe ⟨'r', _, rfl, rfl⟩ (avoids_cons rfl _) hrecipe
  exact file_of_items (.step hitem (Nat.succ_pos _) (.stop (item_refuses rfl)))

end Parsing

/-- A lead alone is no line: the justfile is refused at the place after it. -/
theorem bareLead_unreadable :
    ∀ w ∈ bareLeads, parse (oneLineSource w) = .error (.unreadable 1 (4 + w.length)) := by
  decide +kernel

/-- A line that is not only a lead has text after it. -/
theorem OneLine.text_ne_nil {w : String} (h : OneLine w) (hw : w ∉ bareLeads) :
    (leadOf w.toList).2 ≠ [] := by
  intro hnil
  have hlead : (leadOf w.toList).1.getD "" ∈ "" :: bareLeads := by
    fun_cases leadOf w.toList <;> simp [bareLeads]
  have hspelled := leadOf_spelled w.toList
  rw [hnil, List.append_nil, String.toList_inj] at hspelled
  rw [hspelled] at hlead
  rcases List.mem_cons.1 hlead with rfl | hmem
  · obtain ⟨c, hc, -⟩ := h.first
    cases hc
  · exact hw hmem

/-- **No text of a body is lost.** A line that is not only a lead is read as its lead and pieces of
text that together are the line. A lead alone is refused. -/
theorem parse_bodyText (w : String) (h : OneLine w) :
    (w ∉ bareLeads → ∃ (lead : Option String) (texts : List String),
      parse (oneLineSource w) = .ok [⟨[], .recipe (oneLineRecipe ⟨lead, texts.map .text⟩)⟩] ∧
        lead.getD "" ++ String.join texts = w) ∧
    (w ∈ bareLeads → ∃ row column, parse (oneLineSource w) = .error (.unreadable row column)) := by
  refine ⟨fun hw => ?_, fun hw => ⟨1, 4 + w.length, bareLead_unreadable w hw⟩⟩
  obtain ⟨texts, hread, hconcat⟩ := oneLine_reads (ω := Unit) h (h.text_ne_nil hw)
  refine ⟨(leadOf w.toList).1, texts, parse_of_reads (oneLine_prepared h) hread, ?_⟩
  rw [← String.toList_inj, String.toList_append, String.toList_join, hconcat]
  exact leadOf_spelled w.toList

/-- A line with a lead, quotations, a single brace and what looks like two comments. -/
def commentedLine : String :=
  "@-echo \"$x\" # 'kept' \x7b # `too`!#"

theorem parse_bodyText_commented :
    OneLine commentedLine ∧ commentedLine ∉ bareLeads ∧ (∃ (lead : Option String) (texts : List String),
      parse (oneLineSource commentedLine) = .ok [⟨[], .recipe (oneLineRecipe ⟨lead, texts.map .text⟩)⟩] ∧
        lead.getD "" ++ String.join texts = commentedLine) := by
  have hline : OneLine commentedLine :=
    oneLine_of_check (by decide +kernel) (by decide +kernel) rfl rfl rfl rfl
  have hw : commentedLine ∉ bareLeads := by decide
  exact ⟨hline, hw, (parse_bodyText commentedLine hline).1 hw⟩

/-- A line that is only a lead satisfies what is asked of a line, and no recipe is read from it. -/
theorem parse_loneLead : OneLine "@" ∧ ∀ items, parse (oneLineSource "@") ≠ .ok items := by
  refine ⟨oneLine_of_check (by decide) (by decide) rfl rfl rfl rfl, fun items hok => ?_⟩
  rw [bareLead_unreadable "@" (by decide)] at hok
  cases hok

end Justfile
