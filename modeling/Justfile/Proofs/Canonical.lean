import Justfile.Proofs.BodyText

/-!
# Canonical justfiles

A canonical way to write recipes: a row of attributes, the heading, and the lines of the body, each
after four blanks. What is written this way is read back exactly.

* `Item.written`: how an item is written. `Item.Canonical`: the items that can be written so.
* `lines_repeat`, `recipeText_reads`, `itemText_reads`: lines, recipes and items are read back, and
  what follows them is left to read.
* `items_repeat`: the items of a justfile, one after the other.
* `itemsText_prepared`: preparing the text changes only its end.
* `parse_written`: writing items and reading them back is the identity.

What follows a line or an item is read from its first character that is no line feed on, because an
end of a line takes all line feeds there are. So the statements are about texts without the line
feeds they start with (`skipNewlines`), and the run over a list of lines or items is one induction.
-/

namespace Justfile

open Justfile.Parsing Justfile.Parsing.Parser

/-- A text that can be written as one piece of a line: no line end, number sign, brace or backslash,
no blanks at its ends, and no mark of a lead at its start. -/
structure IsPieceText (s : String) : Prop where
  chars : ∀ c ∈ s.toList, c ∉ ['\r', '\n', '#', '\x7b', '\\']
  first : ∃ c ∈ s.toList.head?, Text.isBlank c = false ∧ c ≠ '@' ∧ c ≠ '-'
  last : ∃ c ∈ s.toList.getLast?, Text.isBlank c = false

/-- How a piece of a line is written. -/
def Fragment.written : Fragment → List Char
  | .text s => s.toList
  | .interpolation _ => []

/-- What stands in a line: its lead and its pieces. -/
def Line.content (l : Line) : List Char :=
  (l.lead.getD "").toList ++ l.parts.flatMap Fragment.written

/-- How a line is written. -/
def Line.written (l : Line) : List Char :=
  ' ' :: ' ' :: ' ' :: ' ' :: (l.content ++ ['\n'])

/-- A line of one piece. -/
structure Line.Canonical (l : Line) : Prop where
  lead : l.lead ∈ [none, some "@", some "-", some "@-", some "-@"]
  text : ∃ s, l.parts = [.text s] ∧ IsPieceText s

/-- How a recipe is written. -/
def Recipe.written (r : Recipe) : List Char :=
  r.heading ++ '\n' :: r.body.flatMap Line.written

/-- A recipe that can be written. -/
structure Recipe.Canonical (r : Recipe) : Prop where
  headed : r.Headed
  lines : ∀ l ∈ r.body, l.Canonical

/-- How attributes are written. -/
def attributeText : List String → List Char
  | [] => []
  | n :: ns => '[' :: (n.toList ++ ((ns.flatMap fun m => ',' :: ' ' :: m.toList) ++ [']', '\n']))

/-- How an item that is a recipe is written. -/
def Item.written (i : Item) : List Char :=
  attributeText i.attributes ++
    (match i.declaration with
    | .recipe r => r.written
    | _ => [])

/-- An item that is a recipe and can be written. -/
structure Item.Canonical (i : Item) : Prop where
  names : ∀ n ∈ i.attributes, IsName n
  recipe : ∃ r, i.declaration = .recipe r ∧ r.Canonical

/-- The first character of a piece. -/
theorem IsPieceText.cons {s : String} (h : IsPieceText s) :
    ∃ c cs, s.toList = c :: cs ∧ Text.isBlank c = false ∧ c ≠ '@' ∧ c ≠ '-' := by
  obtain ⟨c, hc, hfirst⟩ := h.first
  cases hs : s.toList with
  | nil => rw [hs] at hc; cases hc
  | cons d ds =>
    rw [hs] at hc
    cases hc
    exact ⟨c, ds, rfl, hfirst⟩

theorem IsPieceText.plain {s : String} (h : IsPieceText s) : Plain s.toList := by
  refine ⟨fun c hc => ?_, fun hb => ?_⟩
  · have hno := h.chars c hc
    simp only [List.mem_cons, not_or] at hno
    simp [startsNewline, hno.1, hno.2.1]
  · have hmem : '\x7b' ∈ s.toList := hb.subset (by decide)
    exact h.chars _ hmem (by decide)

theorem Line.Canonical.content {l : Line} (h : l.Canonical) :
    ∃ s, l.parts = [.text s] ∧ IsPieceText s ∧ l.content = (l.lead.getD "").toList ++ s.toList := by
  obtain ⟨s, hs, htext⟩ := h.text
  refine ⟨s, hs, htext, ?_⟩
  unfold Line.content
  rw [hs, List.flatMap_singleton]
  rfl

namespace Parsing

section Lines

/-- Without a mark at its start, the text of a line does not go on with the lead. -/
theorem leadOf_content {l : Line} (h : l.Canonical) :
    ∃ s, l.parts = [.text s] ∧ IsPieceText s ∧ leadOf l.content = (l.lead, s.toList) := by
  obtain ⟨s, hs, htext, hcontent⟩ := h.content
  obtain ⟨c, cs, hcs, -, hat, hdash⟩ := htext.cons
  have hlead := h.lead
  refine ⟨s, hs, htext, ?_⟩
  rw [hcontent, hcs]
  generalize l.lead = lead at hlead ⊢
  simp only [List.mem_cons, List.not_mem_nil, or_false] at hlead
  rcases hlead with rfl | rfl | rfl | rfl | rfl <;> simp [leadOf, hat, hdash]

/-- A line starts with its lead or its text. -/
theorem opens_content {l : Line} (h : l.Canonical) : Opens l.content := by
  obtain ⟨s, -, htext, hcontent⟩ := h.content
  obtain ⟨c, cs, hcs, hblank, -⟩ := htext.cons
  have hlead := h.lead
  rw [hcontent]
  generalize l.lead = lead at hlead ⊢
  simp only [List.mem_cons, List.not_mem_nil, or_false] at hlead
  rcases hlead with rfl | rfl | rfl | rfl | rfl
  · exact ⟨c, cs, by simp [hcs], hblank⟩
  · exact ⟨'@', s.toList, by simp, rfl⟩
  · exact ⟨'-', s.toList, by simp, rfl⟩
  · exact ⟨'@', '-' :: s.toList, by simp, rfl⟩
  · exact ⟨'-', '@' :: s.toList, by simp, rfl⟩

variable {ω : Type} [Listener ω] {tail : List Char}

/-- **A line of one piece is read back**, and the line feeds after it are skipped. -/
theorem lineText_reads (depth : Nat) {l : Line} (h : l.Canonical)
    (htail : Avoids startsNewline (skipNewlines tail)) :
    Reads (line depth : Parser ω Line) (l.content ++ '\n' :: tail) l (skipNewlines tail) := by
  obtain ⟨s, hs, htext, hlead⟩ := leadOf_content h
  obtain ⟨d, hend⟩ := lineEnd_newlines (ω := ω) htail
  have hsign : '#' ∉ s.toList := fun hc => htext.chars _ hc (by decide)
  have hplain := htext.plain
  obtain ⟨c, cs, hcs, -⟩ := htext.cons
  rw [hcs] at hsign hplain
  have hpiece : Reads (piece depth : Parser ω Fragment) (c :: cs ++ '\n' :: tail) _ ('\n' :: tail) :=
    wholeText_reads hplain hsign hend
  rw [← hcs, String.ofList_toList] at hpiece
  have hpieces : Repeats (piece depth : Parser ω Fragment) (s.toList ++ '\n' :: tail) [.text s]
      ('\n' :: tail) := by
    refine .step hpiece ?_ (.stop (piece_refuses hend))
    simp only [hcs, List.length_append, List.length_cons]
    omega
  have hl : l = ⟨(leadOf l.content).1, [.text s]⟩ := by rw [hlead, ← hs]
  have hlast : (leadOf l.content).2 = s.toList := by rw [hlead]
  rw [← hlast] at hpieces
  have hread := line_of_pieces hpieces hend
  rwa [← hl] at hread

/-- A text that starts with a blank starts with no line feed. -/
theorem skipNewlines_lines {l : Line} {ls : List Line} (tail : List Char) :
    skipNewlines ((l :: ls).flatMap Line.written ++ tail) =
      ' ' :: ' ' :: ' ' :: ' ' :: (l.content ++ '\n' :: (ls.flatMap Line.written ++ tail)) := by
  rw [List.flatMap_cons, Line.written]
  simp only [List.cons_append, List.append_assoc, List.nil_append]
  rfl

/-- What follows a line, without line feeds: another line, or what follows the body. -/
theorem avoids_lines (ls : List Line) (htail : Avoids Text.isBlank (skipNewlines tail)) :
    Avoids startsNewline (skipNewlines (ls.flatMap Line.written ++ tail)) := by
  cases ls with
  | nil => exact htail.mono fun c => startsNewline_of_not_blank
  | cons l ls =>
    rw [skipNewlines_lines]
    exact avoids_cons rfl _

theorem length_skipNewlines (cs : List Char) : (skipNewlines cs).length ≤ cs.length :=
  (List.dropWhile_suffix _).length_le

/-- **Lines are read back one after the other.** -/
theorem lines_repeat (depth : Nat) {ls : List Line} (h : ∀ l ∈ ls, l.Canonical)
    (htail : Avoids Text.isBlank (skipNewlines tail)) :
    Repeats (indentedLine depth : Parser ω Line) (skipNewlines (ls.flatMap Line.written ++ tail)) ls
      (skipNewlines tail) := by
  induction ls with
  | nil =>
    have hblank : Avoids (· == ' ') (skipNewlines tail) := htail.mono fun c hc =>
      (Bool.or_eq_false_iff.1 (isSpace_of_not_blank hc)).1
    exact .stop (.bind (word_refuses_of_avoids _ rfl hblank))
  | cons l ls ih =>
    have hmore := ih fun k hk => h k (List.mem_cons_of_mem l hk)
    have hline := lineText_reads (ω := ω) depth (h l List.mem_cons_self) (avoids_lines ls htail)
    have hlen := length_skipNewlines (ls.flatMap Line.written ++ tail)
    rw [skipNewlines_lines]
    refine .step ((Reads.word "    " _).bind hline) ?_ hmore
    simp only [List.length_cons, List.length_append] at hlen ⊢
    omega

/-- The body of a recipe, if it has lines. -/
theorem bodyText_reads (depth : Nat) {ls : List Line} (h : ∀ l ∈ ls, l.Canonical)
    (htail : Avoids Text.isBlank (skipNewlines tail)) :
    ∃ o, Reads (optional (body depth) : Parser ω (Option (List Line)))
      (skipNewlines (ls.flatMap Line.written ++ tail)) o (skipNewlines tail) ∧ o.getD [] = ls := by
  cases ls with
  | nil =>
    have hno : Avoids isSpace (skipNewlines tail) := htail.mono fun c => isSpace_of_not_blank
    exact ⟨none, Refuses.optional (body_refuses hno), rfl⟩
  | cons l ls =>
    have hlines := lines_repeat (ω := ω) depth h htail
    rw [skipNewlines_lines] at hlines ⊢
    refine ⟨some (l :: ls), (body_reads ?_ hlines).optional, rfl⟩
    obtain ⟨c, cs, hc, hblank⟩ := opens_content (h l List.mem_cons_self)
    rw [hc]
    exact avoids_cons (isSpace_of_not_blank hblank) _

end Lines

section Items

variable {ω : Type} [Listener ω] {cs tail : List Char}

/-- The heading of a recipe starts with its mark or its name. -/
theorem opens_heading {r : Recipe} (h : r.Headed) (tail : List Char) :
    Opens (r.heading ++ tail) ∧ Avoids (· == '[') (r.heading ++ tail) := by
  have hblank := fun c => isBlank_of_mem_name h.name (c := c)
  obtain ⟨c, cs, hc, hstart, -⟩ := h.name
  have hne : c ≠ '[' := ne_of_isNameStart hstart rfl
  unfold Recipe.heading
  cases r.echo with
  | false => exact ⟨⟨'@', _, rfl, rfl⟩, avoids_cons rfl _⟩
  | true =>
    rw [hc]
    exact ⟨⟨c, _, rfl, hblank c (by rw [hc]; exact List.mem_cons_self)⟩, avoids_of_ne hne _⟩

theorem opens_recipe {r : Recipe} (h : r.Canonical) (tail : List Char) :
    Opens (r.written ++ tail) ∧ Avoids (· == '[') (r.written ++ tail) := by
  unfold Recipe.written
  rw [List.append_assoc]
  exact opens_heading h.headed _

theorem Opens.skipNewlines {s : List Char} (h : Opens s) : skipNewlines s = s := by
  obtain ⟨c, cs, rfl, hc⟩ := h
  refine List.dropWhile_cons_of_neg ?_
  have hstart := startsNewline_of_not_blank hc
  simp only [startsNewline, Bool.or_eq_false_iff] at hstart
  simp [hstart.1]

/-- **A recipe is read back**, and the line feeds after it are skipped. -/
theorem recipeText_reads (depth : Nat) {r : Recipe} (h : r.Canonical)
    (htail : Avoids Text.isBlank (skipNewlines tail)) :
    Reads (recipe (depth + 1) : Parser ω Recipe) (r.written ++ tail) r (skipNewlines tail) := by
  obtain ⟨d, hend⟩ := lineEnd_newlines (ω := ω) (avoids_lines r.body htail)
  obtain ⟨o, hbody, ho⟩ := bodyText_reads (ω := ω) (depth + 1) h.lines htail
  unfold Recipe.written
  rw [List.append_assoc, List.cons_append]
  exact recipe_reads h.headed hend hbody ho (htail.mono fun c => startsNewline_of_not_blank)

/-- The attributes after the first one, each after a comma. -/
theorem moreAttributes_repeat {ns : List String} (h : ∀ n ∈ ns, IsName n) (tail : List Char) :
    Repeats (do let _ ← spread (word ","); name : Parser ω String)
      ((ns.flatMap fun m => ',' :: ' ' :: m.toList) ++ ']' :: tail) ns (']' :: tail) := by
  induction ns with
  | nil => exact .stop (.bind (spread_word_refuses "," rfl (avoids_cons rfl tail)))
  | cons n ns ih =>
    have hn := h n List.mem_cons_self
    have hmore := ih fun m hm => h m (List.mem_cons_of_mem n hm)
    have hends : Avoids isNameRest ((ns.flatMap fun m => ',' :: ' ' :: m.toList) ++ ']' :: tail) := by
      cases ns with
      | nil => exact avoids_cons rfl _
      | cons m ms => exact avoids_cons rfl _
    rw [List.flatMap_cons, List.append_assoc, List.cons_append, List.cons_append]
    have hcomma : Reads (spread (word ",") : Parser ω String)
        (',' :: ' ' :: (n.toList ++ ((ns.flatMap fun m => ',' :: ' ' :: m.toList) ++ ']' :: tail))) ","
        (n.toList ++ ((ns.flatMap fun m => ',' :: ' ' :: m.toList) ++ ']' :: tail)) :=
      symbol_reads "," rfl ((opens_name hn).append _)
    refine .step (hcomma.bind (name_reads hn hends)) ?_ hmore
    simp only [List.length_cons, List.length_append]
    omega

/-- **A row of attributes is read back.** -/
theorem attributeRow_reads {n : String} {ns : List String} (h : ∀ m ∈ n :: ns, IsName m)
    (hcs : Avoids startsNewline (skipNewlines cs)) :
    Reads (attributeRow : Parser ω (List String)) (attributeText (n :: ns) ++ cs) (n :: ns)
      (skipNewlines cs) := by
  set more := (ns.flatMap fun m => ',' :: ' ' :: m.toList) ++ ']' :: '\n' :: cs with hmoreText
  have htext : attributeText (n :: ns) ++ cs = '[' :: (n.toList ++ more) := by
    simp [attributeText, hmoreText]
  have hn := h n List.mem_cons_self
  have hopen := (opens_name hn).append more
  have hends : Avoids isNameRest more := by
    rw [hmoreText]
    cases ns with
    | nil => exact avoids_cons rfl _
    | cons m ms => exact avoids_cons rfl _
  have hbracket : Reads (spaced (word "[") : Parser ω String) ('[' :: (n.toList ++ more)) "["
      (n.toList ++ more) := (Reads.word "[" _).spaced rfl hopen.dropSpaces
  have hnames : Reads (sepBy name (spread (word ",")) : Parser ω (List String)) (n.toList ++ more) (n :: ns)
      (']' :: '\n' :: cs) := by
    have hmore := moreAttributes_repeat (ω := ω) (fun m hm => h m (List.mem_cons_of_mem n hm)) ('\n' :: cs)
    exact .orElse_left ((name_reads hn hends).bind (hmore.many.bind (.pure _ _)))
  -- blanks around the names are taken too, and there are none
  have hspread : Reads (spread (sepBy name (spread (word ","))) : Parser ω (List String)) (n.toList ++ more)
      (n :: ns) (']' :: '\n' :: cs) := by
    rw [← hopen.dropWhile] at hnames
    exact hnames.spread
  have hcomma : Reads (spread (optional (word ",")) : Parser ω (Option String)) (']' :: '\n' :: cs) none
      (']' :: '\n' :: cs) := by
    have hno : Refuses (word "," : Parser ω String) ((']' :: '\n' :: cs).dropWhile Text.isBlank) :=
      word_refuses "," rfl (by decide)
    exact hno.optional.spread
  have hclose : Reads (spaced (word "]") : Parser ω String) (']' :: '\n' :: cs) "]" ('\n' :: cs) :=
    (Reads.word "]" _).spaced rfl rfl
  obtain ⟨d, hend⟩ := lineEnd_newlines (ω := ω) hcs
  rw [htext]
  exact hbracket.bind (hspread.bind (hcomma.bind (hclose.bind (hend.bind (.pure _ _)))))

/-- The attributes before a text that starts neither with a blank nor with a bracket. -/
theorem attributeText_reads {names : List String} (h : ∀ n ∈ names, IsName n) (hopen : Opens cs)
    (hbracket : Avoids (· == '[') cs) :
    Reads (optional (spread attributes) : Parser ω (Option (List String))) (attributeText names ++ cs)
      (some names) cs := by
  cases names with
  | nil =>
    rw [← hopen.dropWhile] at hbracket
    have hnone := attributes_reads (ω := ω) hbracket
    rw [hopen.dropWhile] at hnone
    exact hnone
  | cons n ns =>
    have hno : Refuses (attributeRow : Parser ω (List String)) cs := by
      rw [← hopen.dropSpaces] at hbracket
      exact .bind (.spaced (word_refuses_of_avoids _ rfl hbracket))
    have hcs : Avoids startsNewline (skipNewlines cs) := by
      rw [hopen.skipNewlines]
      obtain ⟨c, w, rfl, hc⟩ := hopen
      exact avoids_cons (startsNewline_of_not_blank hc) w
    have hrow := attributeRow_reads (ω := ω) h hcs
    rw [hopen.skipNewlines] at hrow
    -- all attributes stand in one row
    have hrows : Repeats (attributeRow : Parser ω (List String)) (attributeText (n :: ns) ++ cs) [n :: ns] cs := by
      refine .step hrow ?_ (.stop hno)
      simp only [attributeText, List.length_append, List.length_cons]
      omega
    have hall : Reads (attributes : Parser ω (List String)) (attributeText (n :: ns) ++ cs) (n :: ns) cs := by
      have hread := hrows.many.map List.flatten
      rw [List.flatten_singleton] at hread
      exact .tracedBy hread
    have hspread : Reads (spread attributes : Parser ω (List String)) (attributeText (n :: ns) ++ cs) (n :: ns)
        (cs.dropWhile Text.isBlank) := .spread hall
    rw [hopen.dropWhile] at hspread
    exact hspread.optional

/-- What is written for an item. -/
theorem written_of_recipe {i : Item} {r : Recipe} (h : i.declaration = .recipe r) (tail : List Char) :
    i.written ++ tail = attributeText i.attributes ++ (r.written ++ tail) := by
  unfold Item.written
  rw [h, List.append_assoc]

theorem opens_item {i : Item} (h : i.Canonical) (tail : List Char) : Opens (i.written ++ tail) := by
  obtain ⟨r, hr, hrecipe⟩ := h.recipe
  rw [written_of_recipe hr]
  cases i.attributes with
  | nil => exact (opens_recipe hrecipe tail).1
  | cons n ns => exact ⟨'[', _, rfl, rfl⟩

/-- **An item is read back**, and the line feeds after it are skipped. -/
theorem itemText_reads (depth : Nat) {i : Item} (h : i.Canonical)
    (htail : Avoids Text.isBlank (skipNewlines tail)) :
    Reads (item (depth + 1) : Parser ω Item) (i.written ++ tail) i (skipNewlines tail) := by
  obtain ⟨r, hr, hrecipe⟩ := h.recipe
  obtain ⟨hopen, hbracket⟩ := opens_recipe hrecipe tail
  have hattributes := attributeText_reads (ω := ω) h.names hopen hbracket
  have hread := recipeText_reads (ω := ω) depth hrecipe htail
  have hi : (⟨i.attributes, .recipe r⟩ : Item) = i := by rw [← hr]
  rw [written_of_recipe hr]
  conv => arg 3; rw [← hi]
  exact .traced (hattributes.bind (.bind (.orElse_left (hread.map _)) (.pure _ _)))

/-- What follows an item, without line feeds: another item, or nothing. -/
theorem avoids_items {items : List Item} (h : ∀ i ∈ items, i.Canonical) :
    Avoids Text.isBlank (skipNewlines (items.flatMap Item.written ++ ['\n'])) := by
  cases items with
  | nil => exact avoids_nil _
  | cons i is =>
    rw [List.flatMap_cons, List.append_assoc]
    have hopen := opens_item (h i List.mem_cons_self) (is.flatMap Item.written ++ ['\n'])
    rw [hopen.skipNewlines]
    obtain ⟨c, cs, hc, hblank⟩ := hopen
    rw [hc]
    exact avoids_cons hblank cs

/-- **Items are read back one after the other.** -/
theorem items_repeat (depth : Nat) {items : List Item} (h : ∀ i ∈ items, i.Canonical) :
    Repeats (item (depth + 1) : Parser ω Item) (skipNewlines (items.flatMap Item.written ++ ['\n'])) items
      [] := by
  induction items with
  | nil => exact .stop (item_refuses rfl)
  | cons i is ih =>
    have his : ∀ j ∈ is, j.Canonical := fun j hj => h j (List.mem_cons_of_mem i hj)
    have hi := itemText_reads (ω := ω) depth (h i List.mem_cons_self) (avoids_items his)
    have hopen := opens_item (h i List.mem_cons_self) (is.flatMap Item.written ++ ['\n'])
    have hlen := length_skipNewlines (is.flatMap Item.written ++ ['\n'])
    rw [List.flatMap_cons, List.append_assoc, hopen.skipNewlines]
    refine .step hi ?_ (ih his)
    obtain ⟨c, w, hw, -⟩ := opens_item (h i List.mem_cons_self) []
    rw [List.append_nil] at hw
    rw [hw, List.cons_append, List.length_cons, List.length_append]
    omega

end Items

section Prepared

theorem closes_flatMap {α : Type} {f : α → List Char} {as : List α} (h : ∀ a ∈ as, Closes (f a))
    {s : List Char} (hs : Closes s) : Closes (s ++ as.flatMap f) := by
  induction as generalizing s with
  | nil => simpa using hs
  | cons a as ih =>
    rw [List.flatMap_cons, ← List.append_assoc]
    exact ih (fun b hb => h b (List.mem_cons_of_mem a hb)) ((h a List.mem_cons_self).append s)

/-- A text that is lines, the last of which does not end with a blank. -/
def ClosesLine (s : List Char) : Prop :=
  ∃ init, s = init ++ ['\n'] ∧ Closes init

theorem closesLine_flatMap {α : Type} {f : α → List Char} {as : List α} (h : ∀ a ∈ as, ClosesLine (f a))
    {s : List Char} (hs : Closes s) : ClosesLine (s ++ '\n' :: as.flatMap f) := by
  induction as generalizing s with
  | nil => exact ⟨s, rfl, hs⟩
  | cons a as ih =>
    obtain ⟨init, hinit, hclose⟩ := h a List.mem_cons_self
    have hmore := ih (fun b hb => h b (List.mem_cons_of_mem a hb)) (hclose.append (s ++ ['\n']))
    rw [List.flatMap_cons, hinit]
    simpa using hmore

theorem closes_dependency {d : Dependency} (h : d.Plain) : Closes (' ' :: d.written) := by
  unfold Dependency.written
  split
  · exact (closes_name h.1).append [' ']
  · exact ⟨' ' :: '(' :: (d.name.toList ++ d.args.flatMap fun e => ' ' :: e.literal), ')', rfl, rfl⟩

/-- A heading ends with the colon or with a dependency. -/
theorem closes_heading {r : Recipe} (h : r.Headed) : Closes r.heading := by
  set start := (if r.echo then [] else ['@']) ++ (r.name.toList ++
    ((r.parameters.flatMap fun p => ' ' :: p.written) ++ r.variadicText))
  have htext : r.heading = start ++ [':'] ++ (r.before.flatMap fun d => ' ' :: d.written) ++ r.afterText := by
    simp [Recipe.heading, start]
  have hcolon : Closes (start ++ [':']) := ⟨start, ':', rfl, rfl⟩
  have hbefore := closes_flatMap (fun d hd => closes_dependency (h.before d hd)) hcolon
  rw [htext]
  unfold Recipe.afterText
  split
  · rw [List.append_nil]
    exact hbefore
  · have hmark : Closes [' ', '&', '&'] := ⟨[' ', '&'], '&', rfl, rfl⟩
    exact (closes_flatMap (fun d hd => closes_dependency (h.after d hd)) hmark).append _

theorem closesLine_line {l : Line} (h : l.Canonical) : ClosesLine l.written := by
  obtain ⟨s, -, htext, hcontent⟩ := h.content
  obtain ⟨d, hd, hblank⟩ := htext.last
  have hs : Closes s.toList := by
    obtain ⟨init, hinit⟩ := List.getLast?_eq_some_iff.1 hd
    exact ⟨init, d, hinit, hblank⟩
  refine ⟨' ' :: ' ' :: ' ' :: ' ' :: l.content, rfl, ?_⟩
  rw [hcontent]
  exact (hs.append _).append [' ', ' ', ' ', ' ']

theorem closesLine_item {i : Item} (h : i.Canonical) : ClosesLine i.written := by
  obtain ⟨r, hr, hrecipe⟩ := h.recipe
  have htext : i.written = (attributeText i.attributes ++ r.heading) ++ '\n' :: r.body.flatMap Line.written := by
    have hwritten := written_of_recipe hr []
    rw [List.append_nil, List.append_nil] at hwritten
    rw [hwritten, Recipe.written, List.append_assoc]
  rw [htext]
  exact closesLine_flatMap (fun l hl => closesLine_line (hrecipe.lines l hl))
    ((closes_heading hrecipe.headed).append _)

theorem sealed_cons {c : Char} {cs : List Char} (hc : c ≠ '\\') (h : Sealed cs) : Sealed (c :: cs) := by
  have hone : Sealed [c] := sealed_of_not_mem (by simpa using hc.symm)
  exact hone.append h

theorem sealed_flatMap {α : Type} {f : α → List Char} {as : List α} (h : ∀ a ∈ as, Sealed (f a)) :
    Sealed (as.flatMap f) := by
  induction as with
  | nil => exact sealed_of_not_mem List.not_mem_nil
  | cons a as ih =>
    rw [List.flatMap_cons]
    exact (h a List.mem_cons_self).append (ih fun b hb => h b (List.mem_cons_of_mem a hb))

theorem sealed_name {n : String} (h : IsName n) : Sealed n.toList := by
  refine sealed_of_not_mem fun hc => ?_
  have := List.all_eq_true.1 (isNameRest_of_isName h) _ hc
  cases this

theorem line_literalChar (c : Char) : '\n' ∉ literalChar c := by
  rcases isSpelling_literalChar c with ⟨d, hd, hs⟩ | ⟨hs, -⟩
  · rw [hs]
    simp only [Expr.escapes, List.mem_cons, Prod.mk.injEq, List.not_mem_nil, or_false] at hd
    rcases hd with ⟨-, rfl⟩ | ⟨-, rfl⟩ | ⟨-, rfl⟩ | ⟨-, rfl⟩ | ⟨-, rfl⟩ <;> decide
  · intro hn
    have hc : c = '\n' := by
      rw [hs] at hn
      exact (List.mem_singleton.1 hn).symm
    -- a line feed is written as an escape
    subst hc
    exact absurd hs (by decide)

/-- A backslash in a literal is followed by a character of the literal. -/
theorem sealed_literal {e : Expr} (h : e.IsText) : Sealed e.literal := by
  obtain ⟨s, rfl⟩ := h
  have hline : '\n' ∉ '"' :: s.toList.flatMap literalChar := by
    intro hn
    rcases List.mem_cons.1 hn with hn | hn
    · cases hn
    · obtain ⟨c, -, hc⟩ := List.mem_flatMap.1 hn
      exact line_literalChar c hc
  exact sealed_of_last hline (by decide) (by decide) (by decide)

theorem sealed_parameter {p : Parameter} (h : p.Required ∨ p.Defaulted) : Sealed p.written := by
  have hmark : Sealed (if p.exported then ['$'] else []) := by
    split <;> exact sealed_of_not_mem (by decide)
  unfold Parameter.written
  rcases h with ⟨hn, hd⟩ | ⟨hn, e, he, htext⟩
  · rw [hd, List.append_nil]
    exact hmark.append (sealed_name hn)
  · rw [he]
    exact (hmark.append (sealed_name hn)).append (sealed_cons (by decide) (sealed_literal htext))

theorem sealed_dependency {d : Dependency} (h : d.Plain) : Sealed (' ' :: d.written) := by
  refine sealed_cons (by decide) ?_
  unfold Dependency.written
  split
  · exact sealed_name h.1
  · have hargs : Sealed (d.args.flatMap fun e => ' ' :: e.literal) :=
      sealed_flatMap fun e he => sealed_cons (by decide) (sealed_literal (h.2 e he))
    exact sealed_cons (by decide) (((sealed_name h.1).append hargs).append (sealed_of_not_mem (by decide)))

theorem sealed_heading {r : Recipe} (h : r.Headed) : Sealed r.heading := by
  have hmark : Sealed (if r.echo then [] else ['@']) := by
    split <;> exact sealed_of_not_mem (by decide)
  have hparameters : Sealed (r.parameters.flatMap fun p => ' ' :: p.written) := by
    obtain ⟨required, defaulted, hps, hrequired, hdefaulted⟩ := h.parameters
    refine sealed_flatMap fun p hp => sealed_cons (by decide) (sealed_parameter ?_)
    rw [hps] at hp
    exact (List.mem_append.1 hp).imp (hrequired p) (hdefaulted p)
  have hvariadic : Sealed r.variadicText := by
    unfold Recipe.variadicText
    cases hv : r.variadic with
    | none => exact sealed_of_not_mem (by decide)
    | some v =>
      have hmark : v.arity.mark ≠ '\\' := by cases v.arity <;> decide
      exact sealed_cons (by decide) (sealed_cons hmark (sealed_parameter (h.variadic v hv)))
  have hbefore : Sealed (r.before.flatMap fun d => ' ' :: d.written) :=
    sealed_flatMap fun d hd => sealed_dependency (h.before d hd)
  have hafter : Sealed r.afterText := by
    unfold Recipe.afterText
    split
    · exact sealed_of_not_mem (by decide)
    · have hdeps : Sealed (r.after.flatMap fun d => ' ' :: d.written) :=
        sealed_flatMap fun d hd => sealed_dependency (h.after d hd)
      exact sealed_cons (by decide) (sealed_cons (by decide) (sealed_cons (by decide) hdeps))
  exact hmark.append ((sealed_name h.name).append (hparameters.append (hvariadic.append
    (sealed_cons (by decide) (hbefore.append hafter)))))

theorem sealed_line {l : Line} (h : l.Canonical) : Sealed l.written := by
  obtain ⟨s, -, htext, hcontent⟩ := h.content
  have hs : Sealed s.toList := sealed_of_not_mem fun hc => htext.chars _ hc (by decide)
  have hlead : Sealed (l.lead.getD "").toList := by
    have hmem := h.lead
    generalize l.lead = lead at hmem ⊢
    simp only [List.mem_cons, List.not_mem_nil, or_false] at hmem
    rcases hmem with rfl | rfl | rfl | rfl | rfl <;> exact sealed_of_not_mem (by decide)
  have hindent : Sealed [' ', ' ', ' ', ' '] := sealed_of_not_mem (by decide)
  unfold Line.written
  rw [hcontent]
  exact hindent.append ((hlead.append hs).append (sealed_of_not_mem (by decide)))

theorem sealed_item {i : Item} (h : i.Canonical) : Sealed i.written := by
  obtain ⟨r, hr, hrecipe⟩ := h.recipe
  have hattributes : Sealed (attributeText i.attributes) := by
    have hnames := h.names
    cases hi : i.attributes with
    | nil => exact sealed_of_not_mem (by decide)
    | cons n ns =>
      rw [hi] at hnames
      have hmore : Sealed (ns.flatMap fun m => ',' :: ' ' :: m.toList) := sealed_flatMap fun m hm =>
        sealed_cons (by decide) (sealed_cons (by decide) (sealed_name (hnames m (List.mem_cons_of_mem n hm))))
      exact sealed_cons (by decide) ((sealed_name (hnames n List.mem_cons_self)).append
        (hmore.append (sealed_of_not_mem (by decide))))
  have hlines : Sealed (r.body.flatMap Line.written) := sealed_flatMap fun l hl => sealed_line (hrecipe.lines l hl)
  unfold Item.written
  rw [hr]
  exact hattributes.append ((sealed_heading hrecipe.headed).append (sealed_cons (by decide) hlines))

/-- **Preparing what is written for items** puts one line feed at its end. -/
theorem itemsText_prepared {i : Item} {is : List Item} (h : ∀ j ∈ i :: is, j.Canonical) :
    prepare ((i :: is).flatMap Item.written) = (i :: is).flatMap Item.written ++ ['\n'] := by
  have hsealed : Sealed ((i :: is).flatMap Item.written) := sealed_flatMap fun j hj => sealed_item (h j hj)
  have hclose : ClosesLine ((i :: is).flatMap Item.written) := by
    obtain ⟨init, hinit, hclose⟩ := closesLine_item (h i List.mem_cons_self)
    have hmore := closesLine_flatMap (fun j hj => closesLine_item (h j (List.mem_cons_of_mem i hj))) hclose
    rw [List.flatMap_cons, hinit, List.append_assoc]
    exact hmore
  obtain ⟨init, hinit, hlast⟩ := hclose
  -- the text starts as its first item does
  have hfirst : Avoids Text.isBlank init := by
    have hopen := opens_item (h i List.mem_cons_self) (is.flatMap Item.written)
    rw [← List.flatMap_cons, hinit] at hopen
    obtain ⟨c, cs, hc, hblank⟩ := hopen
    obtain ⟨front, d, rfl, -⟩ := hlast
    intro x hx
    rw [List.append_assoc] at hc
    have hxc : x = c := by
      cases front with
      | nil => cases hx; exact (List.cons.inj hc).1
      | cons y ys => cases hx; exact (List.cons.inj hc).1
    rw [hxc]
    exact hblank
  have hblanks : ∀ c ∈ ['\n'], Text.isBlank c = true := by
    intro c hc
    rw [List.mem_singleton.1 hc]
    rfl
  rw [hinit] at hsealed ⊢
  rw [prepare_uncontinued ['\n'] hsealed.uncontinued hfirst hlast.reverse hblanks, List.append_assoc]
  rfl

end Prepared

/-- A justfile without items. -/
theorem file_of_nothing {ω : Type} [Listener ω] {depth : Nat} :
    Reads (file depth : Parser ω (List Item)) ['\n', '\n'] [] [] := by
  obtain ⟨d, hend⟩ := lineEnd_reads (ω := ω)
  have hitems : Repeats (item depth : Parser ω Item) ['\n', '\n'] [] ['\n', '\n'] := .stop (item_refuses rfl)
  have hlines : Repeats (lineEnd : Parser ω Datum) ['\n', '\n'] [d] [] :=
    .step hend (Nat.succ_pos _) (.stop (lineEnd_refuses (avoids_nil _) (avoids_nil _)))
  have heof : Reads (eof : Parser ω Unit) [] () [] := fun pos t => ⟨pos, 0, t, rfl⟩
  exact hitems.many.bind (hlines.many.bind (.bind (.traced heof) (.pure _ _)))

end Parsing

/-- The counts of a recipe with a heading: the parameters without and with a default. -/
theorem Recipe.Headed.counts {r : Recipe} (h : r.Headed) :
    r.required = (r.parameters.filter fun p => p.default.isNone).length ∧
      r.defaulted = (r.parameters.filter fun p => p.default.isSome).length := by
  obtain ⟨required, defaulted, hps, hrequired, hdefaulted⟩ := h.parameters
  have hno : ∀ p ∈ required, p.default = none := fun p hp => (hrequired p hp).2
  have hyes : ∀ p ∈ defaulted, p.default ≠ none := by
    intro p hp
    obtain ⟨-, e, he, -⟩ := hdefaulted p hp
    rw [he]
    exact Option.some_ne_none e
  have hcount : r.required = required.length := required_eq hps hno hyes
  have hnone : r.parameters.filter (fun p => p.default.isNone) = required := by
    rw [hps, List.filter_append, List.filter_eq_self.2 fun p hp => by simp [hno p hp],
      List.filter_eq_nil_iff.2 fun p hp => by simpa using hyes p hp, List.append_nil]
  have hsome : r.parameters.filter (fun p => p.default.isSome) = defaulted := by
    rw [hps, List.filter_append, List.filter_eq_nil_iff.2 fun p hp => by simp [hno p hp],
      List.filter_eq_self.2 fun p hp => Option.isSome_iff_ne_none.2 (hyes p hp), List.nil_append]
  refine ⟨by rw [hcount, hnone], ?_⟩
  unfold Recipe.defaulted
  rw [hcount, hsome, hps, List.length_append]
  omega

/-- **Writing recipes and reading them back is the identity.** What is written for canonical items is
read as just these items in order, and their parameters without and with a default are counted. -/
theorem parse_written (items : List Item) (h : ∀ i ∈ items, i.Canonical) :
    parse (String.ofList (items.flatMap Item.written)) = .ok items ∧
      ∀ i ∈ items, ∀ r, i.declaration = .recipe r →
        r.required = (r.parameters.filter fun p => p.default.isNone).length ∧
          r.defaulted = (r.parameters.filter fun p => p.default.isSome).length := by
  constructor
  · cases items with
    | nil => exact parse_of_reads rfl file_of_nothing
    | cons i is =>
      have hopen := opens_item (h i List.mem_cons_self) (is.flatMap Item.written ++ ['\n'])
      rw [← List.append_assoc, ← List.flatMap_cons] at hopen
      have hitems := items_repeat (ω := Unit) ((i :: is).flatMap Item.written ++ ['\n']).length h
      rw [hopen.skipNewlines] at hitems
      refine parse_of_reads ?_ (file_of_items hitems)
      rw [String.toList_ofList, itemsText_prepared h]
  · intro i hi r hr
    obtain ⟨r', hr', hrecipe⟩ := (h i hi).recipe
    rw [hr] at hr'
    cases hr'
    exact hrecipe.headed.counts

/-- Two recipes: one with attributes, all kinds of parameters, dependencies and leads, and one that is
only a heading. -/
def sampleItems : List Item :=
  [⟨["unix", "no-cd"], .recipe {
      echo := false
      name := "build"
      parameters := [⟨false, "target", none⟩, ⟨true, "mode", some (.text "a \"b\"\\s\n")⟩]
      variadic := some ⟨.star, ⟨true, "rest", some (.text "")⟩⟩
      before := [⟨"clean", []⟩, ⟨"fetch", [.text "x", .text "=é"]⟩]
      after := [⟨"test", [.text "\t"]⟩]
      body := [⟨some "@-", [.text "echo \"$x\" @ -"]⟩, ⟨none, [.text "true"]⟩] }⟩,
    ⟨[], .recipe {
      echo := true
      name := "test"
      parameters := []
      variadic := some ⟨.plus, ⟨false, "args", none⟩⟩
      before := []
      after := []
      body := [] }⟩]

/-- What is written for them. -/
def sampleText : String :=
  "[unix, no-cd]\n" ++
  "@build target $mode=\"a \\\"b\\\"\\\\s\\n\" *$rest=\"\": clean (fetch \"x\" \"=é\") && (test \"\\t\")\n" ++
  "    @-echo \"$x\" @ -\n" ++
  "    true\n" ++
  "test +args:\n"

theorem canonical_sampleItems : ∀ i ∈ sampleItems, i.Canonical := by
  have hname : ∀ (n : String) (c : Char) (cs : List Char), n.toList = c :: cs → isNameStart c = true →
      cs.all isNameRest = true → IsName n := fun n c cs hn hc hcs => ⟨c, cs, hn, hc, hcs⟩
  have htext : ∀ s : String, Expr.IsText (.text s) := fun s => ⟨s, rfl⟩
  have hpiece : ∀ (s : String) (first last : Char),
      s.toList.all (fun c => decide (c ∉ ['\r', '\n', '#', '\x7b', '\\'])) = true →
      s.toList.head? = some first → s.toList.getLast? = some last → Text.isBlank first = false →
      first ≠ '@' → first ≠ '-' → Text.isBlank last = false → IsPieceText s := by
    intro s first last hchars hfirst hlast hblank hat hdash hend
    refine ⟨fun c hc => ?_, ⟨first, hfirst, hblank, hat, hdash⟩, ⟨last, hlast, hend⟩⟩
    exact of_decide_eq_true (List.all_eq_true.1 hchars c hc)
  have hbuild : IsName "build" := hname _ _ _ rfl rfl rfl
  have htest : IsName "test" := hname _ _ _ rfl rfl rfl
  simp only [sampleItems, List.mem_cons, List.not_mem_nil, or_false, forall_eq_or_imp, forall_eq]
  refine ⟨⟨?_, _, rfl, ⟨hbuild, ⟨[_], [_], rfl, ?_, ?_⟩, ?_, ?_, ?_, ?_⟩, ?_⟩, ?_⟩
  · simp only [List.mem_cons, List.not_mem_nil, or_false, forall_eq_or_imp, forall_eq]
    exact ⟨hname _ _ _ rfl rfl rfl, hname _ _ _ rfl rfl rfl⟩
  · simp only [List.mem_singleton, forall_eq]
    exact ⟨hname _ _ _ rfl rfl rfl, rfl⟩
  · simp only [List.mem_singleton, forall_eq]
    exact ⟨hname _ _ _ rfl rfl rfl, _, rfl, htext _⟩
  · rintro v ⟨⟩
    exact .inr ⟨hname _ _ _ rfl rfl rfl, _, rfl, htext _⟩
  · rintro v ⟨⟩ hnone
    cases hnone
  · simp only [List.mem_cons, List.not_mem_nil, or_false, forall_eq_or_imp, forall_eq, Dependency.Plain]
    exact ⟨⟨hname _ _ _ rfl rfl rfl, fun e he => by cases he⟩, hname _ _ _ rfl rfl rfl, htext _, htext _⟩
  · simp only [List.mem_singleton, forall_eq, Dependency.Plain]
    exact ⟨htest, htext _⟩
  · simp only [List.mem_cons, List.not_mem_nil, or_false, forall_eq_or_imp, forall_eq]
    exact ⟨⟨by decide, _, rfl, hpiece _ 'e' '-' (by decide) rfl rfl rfl (by decide) (by decide) rfl⟩,
      ⟨by decide, _, rfl, hpiece _ 't' 'e' (by decide) rfl rfl rfl (by decide) (by decide) rfl⟩⟩
  · refine ⟨fun n hn => (by cases hn), _, rfl, ⟨htest, ⟨[], [], rfl, ?_, ?_⟩, ?_, ?_, ?_, ?_⟩, ?_⟩
    · exact fun p hp => by cases hp
    · exact fun p hp => by cases hp
    · rintro v ⟨⟩
      exact .inl ⟨hname _ _ _ rfl rfl rfl, rfl⟩
    · exact fun v _ _ p hp => by cases hp
    · exact fun d hd => by cases hd
    · exact fun d hd => by cases hd
    · exact fun l hl => by cases hl

theorem parse_written_sample :
    (∀ i ∈ sampleItems, i.Canonical) ∧ String.ofList (sampleItems.flatMap Item.written) = sampleText ∧
      parse sampleText = .ok sampleItems := by
  have htext : String.ofList (sampleItems.flatMap Item.written) = sampleText := by decide +kernel
  have hparse := (parse_written sampleItems canonical_sampleItems).1
  rw [htext] at hparse
  exact ⟨canonical_sampleItems, htext, hparse⟩

end Justfile
