import Justfile.Parsing.Parse
import Justfile.Proofs.LineEnds
import Justfile.Proofs.Prepare
import Justfile.Proofs.Recovers

/-!
# Writing and reading back

A justfile that assigns what is written for a legible expression is read as that assignment.

* `prepare_eq`: a text on one line is prepared by putting two line feeds at its end.
* `recipe_refuses`: an assignment is not taken for a recipe.
* `file_reads`: the grammar of justfiles on an assignment.
* `parse_source`: writing an expression and reading it back is the identity.
-/

namespace Justfile.Parsing

open Justfile.Parsing.Parser Justfile.Expr

section Prepare

/-- A text without line feeds and without blanks at its ends. -/
theorem prepare_eq {c d : Char} {cs inner : List Char} (hfirst : cs = c :: inner)
    (hlast : ∃ init, cs = init ++ [d]) (hc : Text.isBlank c = false) (hd : Text.isBlank d = false)
    (hline : '\n' ∉ cs) : prepare cs = cs ++ ['\n', '\n'] := by
  obtain ⟨init, hinit⟩ := hlast
  have hstart : Avoids Text.isBlank cs := by
    rw [hfirst]
    exact avoids_cons hc inner
  have hend : Avoids Text.isBlank cs.reverse := by
    rw [hinit, List.reverse_append]
    exact avoids_cons hd _
  have h := prepare_uncontinued [] (uncontinued_of_line (by rwa [List.append_nil])) hstart hend
    fun c hc => absurd hc List.not_mem_nil
  rwa [List.append_nil] at h

theorem line_spelled {c : Char} (h : isLegible c = true) : '\n' ∉ spelled c := by
  rcases spelled_cases h with ⟨d, hd, hs⟩ | ⟨hs, -, -, hn⟩
  · rw [hs]
    simp only [escapes, List.mem_cons, Prod.mk.injEq, List.not_mem_nil, or_false] at hd
    rcases hd with ⟨-, rfl⟩ | ⟨-, rfl⟩ | ⟨-, rfl⟩ | ⟨-, rfl⟩ | ⟨-, rfl⟩ <;> decide
  · rw [hs, List.mem_singleton]
    exact hn.symm

theorem line_name {n : String} (h : IsName n) : '\n' ∉ n.toList := by
  intro hn
  have := isBlank_of_mem_name h hn
  cases this

theorem line_infixSource {l r : List Char} {symbol : String} (hl : '\n' ∉ l)
    (hs : '\n' ∉ symbol.toList) (hr : '\n' ∉ r) : '\n' ∉ infixSource l symbol r := by
  simp [infixSource, hl, hs, hr]

theorem line_condSource {op : Comparison} {l r y n : List Char} (hl : '\n' ∉ l) (hr : '\n' ∉ r)
    (hy : '\n' ∉ y) (hn : '\n' ∉ n) : '\n' ∉ condSource op l r y n := by
  have htest : '\n' ∉ infixSource l op.symbol r := line_infixSource hl (by cases op <;> decide) hr
  unfold condSource
  rw [List.mem_append, List.mem_append, List.mem_append, List.mem_append, List.mem_append,
    List.mem_append]
  rintro ((((((h | h) | h) | h) | h) | h) | h)
  · exact absurd h (by decide)
  · exact htest h
  · exact absurd h (by decide)
  · exact hy h
  · exact absurd h (by decide)
  · exact hn h
  · exact absurd h (by decide)

mutual

/-- **A legible expression is written on one line.** -/
theorem line_written : ∀ {e : Expr}, e.Legible → '\n' ∉ written e
  | .text s, h => by
    rw [Legible] at h
    rw [written, literalSource_eq]
    intro hn
    simp only [List.mem_cons, List.mem_append, List.not_mem_nil, or_false] at hn
    rcases hn with hn | hn | hn
    · cases hn
    · obtain ⟨c, hc, hn⟩ := List.mem_flatMap.1 hn
      exact line_spelled (List.all_eq_true.1 h c hc) hn
    · cases hn
  | .var _, h => by rw [Legible] at h; rw [written]; exact line_name h.1
  | .sum _ _, h => by
    rw [Legible] at h
    rw [written]
    exact line_infixSource (line_written h.2.1) (by decide) (line_written h.2.2)
  | .path _ _, h => by
    rw [Legible] at h
    rw [written]
    exact line_infixSource (line_written h.2.1) (by decide) (line_written h.2.2)
  | .backtick _, h => by
    rw [Legible] at h
    rw [written]
    simp [h.2]
  | .call _ args, h => by
    rw [Legible] at h
    have hn := line_name h.1.1
    have hargs := line_writtenArgs h.2
    rw [written]
    simp [hn, hargs]
  | .bareCall _, h => by rw [Legible] at h; exact h.elim
  | .cond _ _ _ _ _, h => by
    rw [Legible] at h
    rw [written]
    exact line_condSource (line_written h.1) (line_written h.2.1) (line_written h.2.2.1)
      (line_written h.2.2.2)
  | .looseCond _ _ _, h => by rw [Legible] at h; exact h.elim
  | .stray _, h => by rw [Legible] at h; exact h.elim

theorem line_writtenArgs : ∀ {es : List Expr}, AllLegible es → '\n' ∉ writtenArgs es
  | [], _ => by rw [writtenArgs]; exact List.not_mem_nil
  | [e], h => by
    rw [AllLegible] at h
    rw [writtenArgs]
    exact line_written h.1
  | e :: f :: rest, h => by
    rw [AllLegible] at h
    have he := line_written h.1
    have hrest := line_writtenArgs h.2
    rw [writtenArgs]
    simp [he, hrest]

end

/-- What is written for an operand does not end in a blank. -/
theorem operand_ends {e : Expr} (h : e.Legible) (ho : e.IsOperand) : Closes (written e) := by
  cases e with
  | text s =>
    rw [written, literalSource_eq]
    exact ⟨'"' :: s.toList.flatMap spelled, '"', rfl, rfl⟩
  | var n =>
    rw [Legible] at h
    rw [written]
    exact closes_name h.1
  | backtick command =>
    rw [written]
    exact ⟨'`' :: command.toList, '`', rfl, rfl⟩
  | call n args =>
    rw [written]
    exact ⟨n.toList ++ '(' :: writtenArgs args, ')', by rw [List.append_assoc]; rfl, rfl⟩
  | sum left right => exact ho.elim
  | path left right => exact ho.elim
  | bareCall n => exact ho.elim
  | cond op left right yes no => exact ho.elim
  | looseCond test yes no => exact ho.elim
  | stray datum => exact ho.elim

/-- Alone, an expression is on one line and does not end in a blank. -/
theorem alone_ends {e : Expr} (h : e.Legible) :
    '\n' ∉ writtenAlone e ∧ Closes (writtenAlone e) := by
  have hline := line_written h
  rcases h.alone_cases with ⟨ho, heq⟩ | heq
  · rw [heq]
    exact ⟨hline, operand_ends h ho⟩
  · rw [heq]
    exact ⟨by simp [hline], '(' :: written e, ')', rfl, rfl⟩

end Prepare

section File

variable {ω : Type} [Listener ω] {cs : List Char} {depth : Nat}

/-- A name at the end of which stands a blank and then something else. -/
theorem spaced_name_reads (cs : List Char) :
    Reads (spaced name : Parser ω String) ('x' :: ' ' :: ':' :: cs) "x" (':' :: cs) := by
  have hname : Reads (name : Parser ω String) ("x".toList ++ ' ' :: ':' :: cs) "x" (' ' :: ':' :: cs) :=
    name_reads ⟨'x', [], rfl, rfl, rfl⟩ (avoids_cons rfl _)
  exact hname.spaced rfl rfl

/-- Without a name there is no parameter. -/
theorem parameter_refuses (depth : Nat) (cs : List Char) :
    Refuses (spaced plainParameter : Parser ω Parameter) (':' :: cs) ∧
      Refuses (spaced (defaultParameter depth) : Parser ω Parameter) (':' :: cs) ∧
      Refuses (spaced (variadicParameter depth) : Parser ω Variadic) (':' :: cs) := by
  have hmark : Reads (exportMark : Parser ω Bool) (':' :: cs) false (':' :: cs) :=
    (Refuses.optional (word_refuses "$" rfl (by decide))).map _
  have hname : Refuses (name : Parser ω String) (':' :: cs) := name_refuses rfl
  refine ⟨.spaced (.traced (.bind_right hmark (.bind hname))),
    .spaced (.traced (.bind_right hmark (.bind hname))), .spaced (.traced (.orElse (.bind ?_) (.bind ?_)))⟩
  · exact word_refuses "*" rfl (by decide)
  · exact word_refuses "+" rfl (by decide)

/-- **An assignment is not taken for a recipe**: after the colon of a recipe stands no equals
sign. -/
theorem recipe_refuses (cs : List Char) :
    Refuses (recipe depth : Parser ω Recipe) ('x' :: ' ' :: ':' :: '=' :: cs) := by
  have hmute : Reads (optional (spaced (word "@")) : Parser ω (Option String))
      ('x' :: ' ' :: ':' :: '=' :: cs) none _ :=
    Refuses.optional (.spaced (word_refuses "@" rfl (by decide)))
  obtain ⟨hplain, hdefault, hvariadic⟩ := parameter_refuses (ω := ω) depth ('=' :: cs)
  have hcolon : Reads (spaced (word ":") : Parser ω String) (':' :: '=' :: cs) ":" ('=' :: cs) :=
    (Reads.word ":" ('=' :: cs)).spaced rfl rfl
  -- up to the colon it reads like a recipe without parameters, and then nothing fits the equals sign
  have hdep : Refuses (spaced (dependency depth) : Parser ω Dependency) ('=' :: cs) :=
    .spaced (.traced (.orElse (.map _ (name_refuses rfl)) (.bind (word_refuses "(" rfl (by decide)))))
  have hafter : Refuses (afterDependencies depth : Parser ω (List Dependency)) ('=' :: cs) :=
    .bind (.spaced (word_refuses "&&" rfl (by decide)))
  have hend : Refuses (lineEnd : Parser ω Datum) ('=' :: cs) :=
    lineEnd_refuses (avoids_cons rfl cs) (avoids_cons rfl cs)
  have hblank : Refuses (blanks : Parser ω (List Char)) ('=' :: cs) := .span (avoids_cons rfl cs)
  refine .traced (.bind_right hmute (.bind_right (spaced_name_reads _) ?_))
  refine .bind_right (Repeats.stop hplain).many (.bind_right (Repeats.stop hdefault).many ?_)
  refine .bind_right hvariadic.optional (.bind_right hcolon ?_)
  refine .bind_right (Repeats.stop hdep).many (.bind_right hafter.optional (.bind ?_))
  exact .orElse (.map _ hend) (.map _ hblank)

/-- The text of an assignment up to its value. -/
def assigning (s : List Char) : List Char :=
  'x' :: ' ' :: ':' :: '=' :: ' ' :: s

/-- An assignment is read if its value is read and the line ends after it. -/
theorem assignment_reads {e : Expr} {tail : List Char}
    (h : Reads (expression depth : Parser ω Expr) cs e tail) (hopen : Opens cs)
    (htail : tail.dropWhile isSpace = ['\n', '\n']) :
    Reads (assignment depth : Parser ω (String × Expr)) (assigning cs) ("x", e) [] := by
  have hassign : Reads (spread (word ":=") : Parser ω String) (':' :: '=' :: ' ' :: cs) ":=" cs :=
    symbol_reads ":=" rfl hopen
  have hvalue : Reads (spaced (expression depth) : Parser ω Expr) cs e ['\n', '\n'] :=
    h.spaced hopen.dropSpaces htail
  obtain ⟨d, hline⟩ := lineEnd_reads (ω := ω)
  exact .tracedBy ((spaced_name_reads _).bind (hassign.bind (hvalue.bind (hline.bind (.pure _ _)))))

/-- An assignment is refused if the line does not end after its value. -/
theorem assignment_refuses {e : Expr} {tail : List Char}
    (h : Reads (expression depth : Parser ω Expr) cs e tail) (hopen : Opens cs)
    (hline : Refuses (lineEnd : Parser ω Datum) (tail.dropWhile isSpace)) :
    Refuses (assignment depth : Parser ω (String × Expr)) (assigning cs) := by
  have hassign : Reads (spread (word ":=") : Parser ω String) (':' :: '=' :: ' ' :: cs) ":=" cs :=
    symbol_reads ":=" rfl hopen
  have hvalue : Reads (spaced (expression depth) : Parser ω Expr) cs e (tail.dropWhile isSpace) :=
    h.spaced hopen.dropSpaces rfl
  exact .tracedBy (.bind_right (spaced_name_reads _) (.bind_right hassign (.bind_right hvalue (.bind hline))))

/-- Where no bracket stands there are no attributes. -/
theorem attributes_reads (h : Avoids (· == '[') (cs.dropWhile Text.isBlank)) :
    Reads (optional (spread attributes) : Parser ω (Option (List String))) cs (some [])
      (cs.dropWhile Text.isBlank) := by
  have hblank := avoids_dropWhile Text.isBlank cs
  set mid := cs.dropWhile Text.isBlank with hmid
  have hrow : Refuses (attributeRow : Parser ω (List String)) mid := by
    rw [← (hblank.mono fun c => isSpace_of_not_blank).dropWhile] at h
    exact .bind (.spaced (word_refuses_of_avoids _ rfl h))
  have hnone : Reads (attributes : Parser ω (List String)) mid [] mid :=
    .tracedBy ((Repeats.stop hrow).many.map List.flatten)
  have hspread : Reads (spread attributes : Parser ω (List String)) cs []
      (mid.dropWhile Text.isBlank) := .spread (by rw [← hmid]; exact hnone)
  rw [hblank.dropWhile] at hspread
  exact hspread.optional

theorem item_reads {e : Expr}
    (h : Reads (assignment depth : Parser ω (String × Expr)) (assigning cs) ("x", e) []) :
    Reads (item depth : Parser ω Item) (assigning cs) ⟨[], .assignment "x" e⟩ [] := by
  have halias : Refuses (aliasRule : Parser ω Declaration) (assigning cs) :=
    .traced (.bind (word_refuses "alias" rfl (by decide)))
  refine .traced ((attributes_reads (avoids_cons rfl _)).bind (.bind ?_ (.pure _ _)))
  exact .orElse_right (.map _ (recipe_refuses _)) (.orElse_right halias (.orElse_left (h.map _)))

/-- Nothing is declared where there is neither a recipe nor an assignment, no keyword starts and no
line ends. -/
theorem item_refuses_of {mid : List Char} (hmid : cs.dropWhile Text.isBlank = mid)
    (hbracket : Avoids (· == '[') mid) (hrecipe : Refuses (recipe depth : Parser ω Recipe) mid)
    (hassign : Refuses (assignment depth : Parser ω (String × Expr)) mid)
    (hword : ∀ d ∈ ['a', 'e', 's'], Avoids (· == d) mid)
    (hcomment : Avoids (· == '#') (mid.dropWhile isSpace)) (hline : Avoids startsNewline mid) :
    Refuses (item depth : Parser ω Item) cs := by
  have hkeyword : ∀ (w : String) (d : Char), w.toList.head? = some d → d ∈ ['a', 'e', 's'] →
      Refuses (word w : Parser ω String) mid := fun w d hw hd => word_refuses_of_avoids w hw (hword d hd)
  have hsetting : ∀ (n : String) (p : Parser ω SettingValue), Refuses (settingNamed n p) mid :=
    fun n p => .bind (hkeyword "set" 's' rfl (by decide))
  have hattributes := attributes_reads (ω := ω) (hmid ▸ hbracket)
  rw [hmid] at hattributes
  refine .traced (.bind_right hattributes (.bind ?_))
  refine .orElse (.map _ hrecipe) (.orElse (.traced (.bind (hkeyword _ _ rfl (by decide)))) ?_)
  refine .orElse (.map _ hassign) (.orElse (.traced (.bind (hkeyword _ _ rfl (by decide)))) ?_)
  refine .orElse (.traced (.bind ?_)) ?_
  · exact .orElse (hsetting _ _) (.orElse (hsetting _ _) (.orElse (hsetting _ _) (.orElse (hsetting _ _)
      (.orElse (hsetting _ _) (.orElse (hsetting _ _) (.orElse (hsetting _ _) (.orElse (hsetting _ _)
        (.orElse (hsetting _ _) (hsetting _ _)))))))))
  · exact .orElse (comment_refuses hcomment) (.map _ (lineEnd_refuses hcomment hline))

/-- Nothing is declared where only blanks are left. -/
theorem item_refuses (h : cs.dropWhile Text.isBlank = []) : Refuses (item depth : Parser ω Item) cs := by
  have hname : Refuses (spaced name : Parser ω String) [] :=
    .spaced (.traced (.map _ (.span (avoids_nil _))))
  have hmute : Reads (optional (spaced (word "@")) : Parser ω (Option String)) [] none [] :=
    Refuses.optional (.spaced (word_refuses_of_avoids _ rfl (avoids_nil _)))
  exact item_refuses_of h (avoids_nil _) (.traced (.bind_right hmute (.bind hname)))
    (.tracedBy (.bind hname)) (fun d _ => avoids_nil _) (avoids_nil _) (avoids_nil _)

/-- A justfile is its items. -/
theorem file_of_items {items : List Item} (h : Repeats (item depth : Parser ω Item) cs items []) :
    Reads (file depth : Parser ω (List Item)) cs items [] := by
  have hlines : Repeats (lineEnd : Parser ω Datum) [] [] [] :=
    .stop (lineEnd_refuses (avoids_nil _) (avoids_nil _))
  have heof : Reads (eof : Parser ω Unit) [] () [] := fun pos t => ⟨pos, 0, t, rfl⟩
  exact h.many.bind (hlines.many.bind (.bind (.traced heof) (.pure _ _)))

/-- **A justfile that is one assignment.** -/
theorem file_reads {e : Expr}
    (h : Reads (assignment depth : Parser ω (String × Expr)) (assigning cs) ("x", e) []) :
    Reads (file depth : Parser ω (List Item)) (assigning cs) [⟨[], .assignment "x" e⟩] [] :=
  file_of_items (.step (item_reads h) (Nat.succ_pos _) (.stop (item_refuses rfl)))

/-- **A justfile that starts like an assignment and is none** is no justfile. -/
theorem file_refuses (h : Refuses (assignment depth : Parser ω (String × Expr)) (assigning cs)) :
    Refuses (file depth : Parser ω (List Item)) (assigning cs) := by
  have hitem : Refuses (item depth : Parser ω Item) (assigning cs) :=
    item_refuses_of rfl (avoids_cons rfl _) (recipe_refuses _) h
      (fun d hd => avoids_of_ne (by rintro rfl; exact absurd hd (by decide)) _) (avoids_cons rfl _)
      (avoids_cons rfl _)
  have hline : Refuses (lineEnd : Parser ω Datum) (assigning cs) :=
    lineEnd_refuses (avoids_cons rfl _) (avoids_cons rfl _)
  have heof : Refuses (eof : Parser ω Unit) (assigning cs) := fun pos t => ⟨pos, t, rfl⟩
  exact .bind_right (Repeats.stop hitem).many (.bind_right (Repeats.stop hline).many (.bind (.traced heof)))

end File

end Justfile.Parsing

namespace Justfile

open Justfile.Parsing Justfile.Expr

/-- A text is read as its prepared form is. -/
theorem parse_of_reads {s : String} {cs rest : List Char} {items : List Item}
    (hprepared : prepare s.toList = cs)
    (h : Reads (file (cs.length + 1) : Parser Unit (List Item)) cs items rest) :
    parse s = .ok items := by
  obtain ⟨next, far, t, hrun⟩ := h 0 ()
  unfold parse Parsing.read
  rw [hprepared, hrun]

/-- A text whose prepared form is refused is unreadable. -/
theorem parse_of_refuses {s : String} {cs : List Char} (hprepared : prepare s.toList = cs)
    (h : Refuses (file (cs.length + 1) : Parser Unit (List Item)) cs) :
    ∃ row column, parse s = .error (.unreadable row column) := by
  obtain ⟨far, t, hrun⟩ := h 0 ()
  refine ⟨(Text.place far cs).1, (Text.place far cs).2, ?_⟩
  unfold parse Parsing.read
  rw [hprepared, hrun]

/-- An assignment on one line, prepared. -/
theorem prepare_assigning {s : List Char} (hline : '\n' ∉ s) (hclose : Closes s) :
    prepare (assigning s) = assigning (s ++ ['\n', '\n']) := by
  obtain ⟨init, c, hlast, hc⟩ := hclose
  refine prepare_eq rfl ⟨assigning init, ?_⟩ rfl hc ?_
  · rw [hlast]; rfl
  · simp [assigning, hline]

/-- **Writing an expression and reading it back is the identity.** What is written for a legible
expression, as the value of a variable, is read as one item without attributes that assigns just
this expression. -/
theorem parse_source (e : Expr) (h : e.Legible) :
    ∃ s, e.source 0 = .ok s ∧ parse ("x := " ++ s) = .ok [⟨[], .assignment "x" e⟩] := by
  refine ⟨String.ofList (writtenAlone e), ?_, ?_⟩
  · unfold source
    rw [sourceChars_zero h.proper]
    rfl
  obtain ⟨hline, hclose⟩ := alone_ends h
  have htext : ("x := " ++ String.ofList (writtenAlone e)).toList = assigning (writtenAlone e) := by
    rw [String.toList_append, @String.toList_ofList (writtenAlone e)]
    rfl
  have hprepared := prepare_assigning hline hclose
  rw [← htext] at hprepared
  refine parse_of_reads hprepared (file_reads ?_)
  -- the line feeds that are put at the end close the value, and depth is counted on the whole text
  have hends : Ends ['\n', '\n'] := ⟨stops_cons (.inr (.inr (.inr rfl))) _, avoids_nil _⟩
  have hdepth : (writtenAlone e).length < (assigning (writtenAlone e ++ ['\n', '\n'])).length + 1 := by
    simp only [assigning, List.length_cons, List.length_append]
    omega
  obtain ⟨hopen, -⟩ := alone_opens (ω := Unit) h hends.1
  exact assignment_reads (expression_alone h hdepth hends) (hopen.append _) rfl

/-- An expression with escapes, a path inside a test, and a conditional inside a conditional. -/
def nestedExpr : Expr :=
  .sum (.text "a\"b\\\n") (.cond .matching (.path (.call "f" [.backtick "ls", .var "i-f"]) (.text ""))
    (.cond .unequal (.var "y") (.text "") (.var "z") (.call "g" [])) (.text "'") (.var "else"))

/-- What is written for it. -/
def nestedSource : String :=
  "(\"a\\\"b\\\\\\n\" + if f(`ls`, i-f) / \"\" =~ if y != \"\" \x7b z \x7d else \x7b g() \x7d \x7b \"'\" \x7d " ++
    "else \x7b else \x7d)"

theorem parse_source_nested :
    nestedExpr.Legible ∧ nestedExpr.source 0 = .ok nestedSource ∧
      parse ("x := " ++ nestedSource) = .ok [⟨[], .assignment "x" nestedExpr⟩] := by
  have hname : ∀ (n : String) (c : Char) (cs : List Char), n.toList = c :: cs → isNameStart c = true →
      cs.all isNameRest = true → ¬ ['i', 'f'] <+: c :: cs → IsFreeName n :=
    fun n c cs hn hc hcs hif => ⟨⟨c, cs, hn, hc, hcs⟩, by rw [hn]; exact hif⟩
  have hlegible : nestedExpr.Legible := by
    simp only [nestedExpr, Legible, AllLegible, IsOperand, true_and, and_true]
    refine ⟨rfl, ⟨⟨hname _ _ _ rfl rfl rfl (by decide), by decide, ?_⟩, rfl⟩, ?_⟩
    · exact hname _ _ _ rfl rfl rfl (by decide)
    · exact ⟨⟨hname _ _ _ rfl rfl rfl (by decide), rfl, hname _ _ _ rfl rfl rfl (by decide),
        hname _ _ _ rfl rfl rfl (by decide)⟩, rfl, hname _ _ _ rfl rfl rfl (by decide)⟩
  have hsource : nestedExpr.source 0 = .ok nestedSource := by decide +kernel
  obtain ⟨s, hs, hparse⟩ := parse_source nestedExpr hlegible
  rw [hsource] at hs
  cases hs
  exact ⟨hlegible, hsource, hparse⟩

end Justfile
