import Justfile.Proofs.Canonical

/-!
# Keywords at the start of names

The word `if` is read wherever its two letters stand, also where they start a longer name, and what a
conditional has taken is not given back. So the name at the start of a test may be read as a
conditional of its own, which takes the comparison and the branches that were meant for the outer one.

* `captured`: the names for which this happens. After the letters of `if` stands a name that is not
  captured itself: for every further `if` at the front of the name, the answer changes.
* `name_reads_or_taken`: the name in front of a comparison, by induction along these letters.
* `parse_comparison`: an assignment of a conditional that compares a name with a text is read as that
  conditional if the name is not captured, and is unreadable otherwise.
-/

namespace Justfile.Parsing

open Justfile.Parsing.Parser Justfile.Expr

/-- A text that starts like a name. -/
def startsName : List Char → Bool
  | [] => false
  | c :: _ => isNameStart c

/-- The letters of `if` at the start of the name are taken for the keyword: a name follows them, and
one that is not captured itself. -/
def captured : List Char → Bool
  | 'i' :: 'f' :: rest => startsName rest && !captured rest
  | _ => false

theorem captured_if (rest : List Char) :
    captured ('i' :: 'f' :: rest) = (startsName rest && !captured rest) := by
  rw [captured]

/-- Names that do not start like a conditional are not captured. -/
theorem captured_of_free {cs : List Char} (h : ¬ ['i', 'f'] <+: cs) : captured cs = false := by
  unfold captured
  split
  · exact absurd ⟨_, rfl⟩ h
  · rfl

theorem isNameRest_after_if {rest : List Char} (h : IsName (String.ofList ('i' :: 'f' :: rest))) :
    rest.all isNameRest = true := by
  have hall := isNameRest_of_isName h
  rw [String.toList_ofList, List.all_cons, List.all_cons, Bool.and_eq_true, Bool.and_eq_true] at hall
  exact hall.2.2

/-- What follows the letters of `if` in a name is a name if it starts like one. -/
theorem isName_after_if {rest : List Char} (h : IsName (String.ofList ('i' :: 'f' :: rest)))
    (hs : startsName rest = true) : IsName (String.ofList rest) := by
  have hall := isNameRest_after_if h
  cases rest with
  | nil => cases hs
  | cons c cs =>
    rw [List.all_cons, Bool.and_eq_true] at hall
    exact ⟨c, cs, String.toList_ofList, hs, hall.2⟩

/-- A name may stand after an expression and a blank. -/
theorem ends_name {n : String} (h : IsName n) (rest : List Char) : Ends (' ' :: (n.toList ++ rest)) := by
  have hmem := fun c => isBlank_of_mem_name h (c := c)
  obtain ⟨c, cs, hn, hc, -⟩ := h
  rw [hn] at hmem ⊢
  refine ends_blank (hmem c List.mem_cons_self) ?_ (cs ++ rest)
  rw [beq_false_of_ne (ne_of_isNameStart hc rfl), beq_false_of_ne (ne_of_isNameStart hc rfl)]
  rfl

/-- No line ends in front of a name. -/
theorem lineEnd_refuses_name {ω : Type} [Listener ω] {n : String} (h : IsName n) (rest : List Char) :
    Refuses (lineEnd : Parser ω Datum) (n.toList ++ rest) := by
  have hopen := (opens_name h).append rest
  obtain ⟨c, cs, hn, hc, -⟩ := h
  rw [hn] at hopen ⊢
  refine lineEnd_refuses ?_ ?_
  · rw [hopen.dropSpaces]
    exact avoids_of_ne (ne_of_isNameStart hc rfl) (cs ++ rest)
  · refine avoids_cons ?_ (cs ++ rest)
    unfold startsNewline
    rw [beq_false_of_ne (ne_of_isNameStart hc rfl), beq_false_of_ne (ne_of_isNameStart hc rfl)]
    rfl

/-- Where a name goes on and none starts, no expression starts. -/
theorem expression_refuses_rest {ω : Type} [Listener ω] {c : Char} (hc : isNameRest c = true)
    (hs : isNameStart c = false) (depth : Nat) (cs : List Char) :
    Refuses (expression depth : Parser ω Expr) (c :: cs) := by
  have hne : ∀ d, isNameRest d = false → c ≠ d := by
    rintro d hd rfl
    rw [hc] at hd
    cases hd
  refine expression_refuses_start ?_ (hne _ rfl) (isBlank_of_isNameRest hc) depth cs
  simp only [isOperandStart, Bool.or_eq_false_iff, beq_eq_false_iff_ne]
  exact ⟨⟨⟨⟨hs, hne _ rfl⟩, hne _ rfl⟩, hne _ rfl⟩, hne _ rfl⟩

variable {ω : Type} [Listener ω]

/-- A text from which the expression is recovered at every depth: it has no others in it. -/
structure Solid (ω : Type) [Listener ω] (s : List Char) (e : Expr) : Prop where
  opens : Opens s
  recovers : ∀ depth, Recovers (expression (depth + 1) : Parser ω Expr) s e

/-- A literal of the text on one line: quotes around a spelling for each of its characters. -/
def IsLiteral (s : String) (l : List Char) : Prop :=
  ∃ spell : Char → List Char, (∀ c ∈ s.toList, IsSpelling c (spell c)) ∧
    l = '"' :: (s.toList.flatMap spell ++ ['"']) ∧ '\n' ∉ l

/-- **Every text has a literal on one line.** -/
theorem isLiteral_literal (s : String) : IsLiteral s (literal s) := by
  refine ⟨literalChar, fun c _ => isSpelling_literalChar c, rfl, fun hn => ?_⟩
  simp only [literal, List.mem_cons, List.mem_append, List.mem_flatMap, List.not_mem_nil, or_false] at hn
  rcases hn with hn | ⟨c, -, hn⟩ | hn
  · cases hn
  · exact line_literalChar c hn
  · cases hn

theorem IsLiteral.solid {s : String} {l : List Char} (h : IsLiteral s l) : Solid ω l (.text s) := by
  obtain ⟨spell, hspell, rfl, -⟩ := h
  refine ⟨⟨'"', _, rfl, rfl⟩, fun depth rest hrest => ⟨rest, reads_expression_succ ?_, rfl⟩⟩
  refine expression_of_value (fun t ht => ?_) ⟨'"', _, rfl, rfl⟩ hrest (word_refuses _ rfl (by decide))
  have hquote : Avoids (· == '"') t := ht.avoids rfl rfl rfl rfl
  have hread := literal_reads (ω := ω) hspell hquote
  rw [List.cons_append, List.append_assoc, List.singleton_append]
  exact value_literal hread

section Comparison

variable {op : Comparison} {sr sy sn cs w : List Char} {left right yes no : Expr} {depth : Nat}

/-- What follows the left side of a test: the comparison, both branches, and the end of a justfile. -/
def afterLeft (op : Comparison) (sr sy sn : List Char) : List Char :=
  ' ' :: (op.symbol.toList ++ ' ' :: (sr ++ ' ' :: branches sy sn ['\n', '\n']))

theorem ends_afterLeft (op : Comparison) (sr sy sn : List Char) : Ends (afterLeft op sr sy sn) := by
  cases op <;> exact ends_blank rfl rfl _

theorem dropWhile_afterLeft (op : Comparison) (sr sy sn : List Char) :
    (afterLeft op sr sy sn).dropWhile Text.isBlank =
      op.symbol.toList ++ ' ' :: (sr ++ ' ' :: branches sy sn ['\n', '\n']) := by
  cases op <;> rfl

/-- If the left side is read and nothing else, the conditional is read up to the end of the line. -/
theorem conditional_of_left (hr : Solid ω sr right) (hy : Solid ω sy yes) (hn : Solid ω sn no)
    (hif : Reads (spread (word "if") : Parser ω String) cs "if" (w ++ afterLeft op sr sy sn))
    (hleft : Reads (expression (depth + 1) : Parser ω Expr) (w ++ afterLeft op sr sy sn) left
      (afterLeft op sr sy sn)) :
    Reads (conditionalRule (expression (depth + 1)) (conditional (depth + 1)) : Parser ω Expr) cs
      (.cond op left right yes no) ['\n', '\n'] := by
  obtain ⟨tail, hright, htail⟩ := hr.recovers depth _
    (ends_blank (c := '\x7b') rfl rfl (branches sy sn ['\n', '\n']).tail)
  have htest : Reads (testRule (expression (depth + 1))) (w ++ afterLeft op sr sy sn) ⟨op, left, right⟩ tail :=
    test_reads hleft (dropWhile_afterLeft op sr sy sn) (hr.opens.append _) hright
  exact conditionalRule_reads hif htest htail (hy.recovers depth) hy.opens (hn.recovers depth) hn.opens
    (conditional_refuses (depth + 1))

/-- If the left side takes all up to the end of the line, no comparison is left for the conditional. -/
theorem conditional_of_taken
    (hif : Reads (spread (word "if") : Parser ω String) cs "if" (w ++ afterLeft op sr sy sn))
    (htaken : Reads (expression depth : Parser ω Expr) (w ++ afterLeft op sr sy sn) left ['\n', '\n']) :
    Refuses (conditionalRule (expression depth) (conditional depth) : Parser ω Expr) cs := by
  have hno : ∀ other : Comparison, Refuses (testWith (expression depth : Parser ω Expr) other)
      (w ++ afterLeft op sr sy sn) := by
    intro other
    refine .bind_right htaken (.bind (.spread (.word ?_)))
    cases other <;> rfl
  exact .bind_right hif (.bind (.traced (.orElse (hno _) (.orElse (hno _) (hno _)))))

/-- After the letters of `if` no test is read where the name ends or goes on with no name. -/
theorem conditional_of_no_name (hw : IsName (String.ofList ('i' :: 'f' :: w))) (hs : startsName w = false) :
    Refuses (conditionalRule (expression depth) (conditional depth) : Parser ω Expr)
      ('i' :: 'f' :: w ++ afterLeft op sr sy sn) := by
  have hif : Reads (spread (word "if") : Parser ω String) ('i' :: 'f' :: w ++ afterLeft op sr sy sn) "if"
      ((w ++ afterLeft op sr sy sn).dropWhile Text.isBlank) := spread_word_reads "if" rfl
  have hnone : Refuses (expression depth : Parser ω Expr)
      ((w ++ afterLeft op sr sy sn).dropWhile Text.isBlank) := by
    cases w with
    | nil =>
      rw [List.nil_append, dropWhile_afterLeft]
      cases op <;> exact expression_refuses_start rfl (by decide) rfl depth _
    | cons c w =>
      have hc : isNameRest c = true := by
        have hall := isNameRest_after_if hw
        rw [List.all_cons, Bool.and_eq_true] at hall
        exact hall.1
      rw [List.cons_append, (avoids_cons (isBlank_of_isNameRest hc) _).dropWhile]
      exact expression_refuses_rest hc hs depth _
  exact .bind_right hif (.bind (.traced (.orElse (.bind hnone) (.orElse (.bind hnone) (.bind hnone)))))

omit [Listener ω] in
/-- The letters of `if` are read at the start of a name, and what follows them is left. -/
theorem if_reads_name (hw : IsName (String.ofList w)) :
    Reads (spread (word "if") : Parser ω String) ('i' :: 'f' :: w ++ afterLeft op sr sy sn) "if"
      (w ++ afterLeft op sr sy sn) := by
  have hopen := opens_name hw
  rw [String.toList_ofList] at hopen
  have hread : Reads (spread (word "if") : Parser ω String) ('i' :: 'f' :: w ++ afterLeft op sr sy sn) "if"
      ((w ++ afterLeft op sr sy sn).dropWhile Text.isBlank) := spread_word_reads "if" rfl
  rwa [(hopen.append _).dropWhile] at hread

/-- Where no conditional is read, the name is read as a variable. -/
theorem var_of_no_conditional (hw : IsName (String.ofList w))
    (hcond : Refuses (conditionalRule (expression depth) (conditional depth) : Parser ω Expr)
      (w ++ afterLeft op sr sy sn)) :
    Reads (expression (depth + 1) : Parser ω Expr) (w ++ afterLeft op sr sy sn) (.var (String.ofList w))
      (afterLeft op sr sy sn) := by
  have hvar : RecoversWhole (valueRule (expression depth : Parser ω Expr)) _ _ := value_var hw
  rw [String.toList_ofList] at hvar
  exact reads_expression_succ (expression_of_operand hvar (ends_afterLeft op sr sy sn) hcond)

/-- **The name in front of a comparison** is read as a variable if it is not captured. Otherwise it
is read as a conditional, together with all up to the end of the line. -/
theorem name_reads_or_taken (op : Comparison) (hr : Solid ω sr right) (hy : Solid ω sy yes)
    (hn : Solid ω sn no) :
    ∀ {w : List Char}, IsName (String.ofList w) → ∀ {depth : Nat}, w.length < depth →
      (captured w = false → Reads (expression depth : Parser ω Expr) (w ++ afterLeft op sr sy sn)
        (.var (String.ofList w)) (afterLeft op sr sy sn)) ∧
      (captured w = true → ∃ e, Reads (expression depth : Parser ω Expr) (w ++ afterLeft op sr sy sn) e
        ['\n', '\n']) := by
  intro w
  -- along the letters of `if` at the front of the name
  induction w using captured.induct with
  | case1 w ih =>
    intro hw depth hd
    obtain ⟨d, rfl⟩ : ∃ d, depth = d + 2 := ⟨depth - 2, by rw [List.length_cons] at hd; omega⟩
    rw [captured_if]
    cases hs : startsName w with
    | false =>
      exact ⟨fun _ => var_of_no_conditional hw (conditional_of_no_name hw hs), fun h => absurd h Bool.false_ne_true⟩
    | true =>
      have hrest := isName_after_if hw hs
      have hlt : w.length < d + 1 := by
        rw [List.length_cons, List.length_cons] at hd
        omega
      obtain ⟨hfree, htaken⟩ := ih hrest hlt
      cases hc : captured w with
      | false =>
        have hcond := conditional_of_left hr hy hn (if_reads_name hrest) (hfree hc)
        exact ⟨fun h => absurd h.symm Bool.false_ne_true,
          fun _ => ⟨_, reads_expression_succ (.traced (.orElse_left hcond))⟩⟩
      | true =>
        obtain ⟨e, he⟩ := htaken hc
        exact ⟨fun _ => var_of_no_conditional hw (conditional_of_taken (if_reads_name hrest) he),
          fun h => absurd h Bool.false_ne_true⟩
  | case2 w hfree =>
    intro hw depth hd
    obtain ⟨d, rfl⟩ : ∃ d, depth = d + 1 := ⟨depth - 1, by omega⟩
    have hprefix : ¬ ['i', 'f'] <+: w := by
      rintro ⟨rest, rfl⟩
      exact hfree rest rfl
    have hopen := opens_name hw
    have hif : Refuses (word "if" : Parser ω String) (_ ++ afterLeft op sr sy sn) :=
      if_refuses_name ⟨hw, by rwa [String.toList_ofList]⟩ (avoids_cons rfl _)
    rw [String.toList_ofList] at hopen hif
    rw [captured_of_free hprefix]
    exact ⟨fun _ => var_of_no_conditional hw (conditionalRule_refuses (hopen.append _) hif),
      fun h => absurd h Bool.false_ne_true⟩

end Comparison

end Justfile.Parsing

namespace Justfile

open Justfile.Parsing Justfile.Parsing.Parser Justfile.Expr

/-- A justfile that assigns a conditional on the comparison of a name. -/
def comparisonSource (v : String) (op : Comparison) (right yes no : List Char) : String :=
  "x := if " ++ v ++ " " ++ op.symbol ++ " " ++ String.ofList right ++ " \x7b " ++ String.ofList yes ++
    " \x7d else \x7b " ++ String.ofList no ++ " \x7d"

theorem comparisonSource_toList (v : String) (op : Comparison) (right yes no : List Char) :
    (comparisonSource v op right yes no).toList =
      assigning (condSource op v.toList right yes no) := by
  have hright := @String.toList_ofList right
  have hyes := @String.toList_ofList yes
  have hno := @String.toList_ofList no
  have hhead : "x := if ".toList = 'x' :: ' ' :: ':' :: '=' :: ' ' :: "if ".toList := rfl
  have hblank : " ".toList = [' '] := rfl
  unfold comparisonSource condSource infixSource assigning
  iterate 10 rw [String.toList_append]
  rw [hright, hyes, hno, hhead, hblank]
  simp only [List.append_assoc, List.cons_append, List.nil_append]

section

variable {v a b c : String} {la lb lc : List Char} (op : Comparison)

/-- The justfile is on one line, and prepared by ending this line. -/
theorem prepare_comparison (hv : IsName v) (ha : IsLiteral a la) (hb : IsLiteral b lb)
    (hc : IsLiteral c lc) :
    prepare (comparisonSource v op la lb lc).toList =
      assigning ("if".toList ++ ' ' :: (v.toList ++ afterLeft op la lb lc)) := by
  obtain ⟨-, -, -, hla⟩ := ha
  obtain ⟨-, -, -, hlb⟩ := hb
  obtain ⟨-, -, -, hlc⟩ := hc
  have hclose : Closes (condSource op v.toList la lb lc) := by
    unfold condSource
    exact Closes.append ⟨[' '], '\x7d', rfl, rfl⟩ _
  rw [comparisonSource_toList, prepare_assigning (line_condSource (line_name hv) hla hlb hlc) hclose,
    condSource_append]
  simp [infixSource, afterLeft]

/-- **A name in front of a comparison is read as a variable unless it is captured**, and a justfile
with a captured one is unreadable. -/
theorem parse_comparison (hv : IsName v) (ha : IsLiteral a la) (hb : IsLiteral b lb)
    (hc : IsLiteral c lc) :
    (captured v.toList = false → parse (comparisonSource v op la lb lc) =
      .ok [⟨[], .assignment "x" (.cond op (.var v) (.text a) (.text b) (.text c))⟩]) ∧
    (captured v.toList = true → ∃ row column, parse (comparisonSource v op la lb lc) =
      .error (.unreadable row column)) := by
  have hprepared := prepare_comparison op hv ha hb hc
  set value := "if".toList ++ ' ' :: (v.toList ++ afterLeft op la lb lc) with hvalue
  obtain ⟨d, hd⟩ : ∃ d, (assigning value).length = d + 1 := ⟨value.length + 4, rfl⟩
  have hlt : v.toList.length < d + 1 := by
    have hlen : value.length + 4 = d := by simpa [assigning] using hd
    rw [hvalue] at hlen
    simp only [List.length_append, List.length_cons] at hlen
    omega
  have hopen : Opens value := ⟨'i', _, rfl, rfl⟩
  have hif : Reads (spread (word "if") : Parser Unit String) value "if" (v.toList ++ afterLeft op la lb lc) :=
    symbol_reads "if" rfl ((opens_name hv).append _)
  have hname : IsName (String.ofList v.toList) := by rwa [String.ofList_toList]
  obtain ⟨hfree, htaken⟩ := name_reads_or_taken (ω := Unit) op ha.solid hb.solid hc.solid hname hlt
  rw [String.ofList_toList] at hfree
  constructor
  · intro hc'
    have hcond := conditional_of_left ha.solid hb.solid hc.solid hif (hfree hc')
    have hread : Reads (expression ((assigning value).length + 1) : Parser Unit Expr) value
        (.cond op (.var v) (.text a) (.text b) (.text c)) ['\n', '\n'] := by
      rw [hd]
      exact reads_expression_succ (.traced (.orElse_left hcond))
    exact parse_of_reads hprepared (file_reads (assignment_reads hread hopen rfl))
  · intro hc'
    obtain ⟨e, he⟩ := htaken hc'
    have hread : Reads (expression ((assigning value).length + 1) : Parser Unit Expr) value
        (.var "if") (' ' :: (v.toList ++ afterLeft op la lb lc)) := by
      rw [hd]
      exact reads_expression_succ (expression_of_operand (value_var ⟨'i', ['f'], rfl, rfl, rfl⟩)
        (ends_name hv _) (conditional_of_taken hif he))
    refine parse_of_refuses hprepared (file_refuses (assignment_refuses hread hopen ?_))
    rw [List.dropWhile_cons_of_pos rfl, ((opens_name hv).append _).dropSpaces]
    exact lineEnd_refuses_name hv _

end

/-- One `if` at the front of the name takes the comparison, a second one leaves it. -/
theorem parse_comparison_if :
    (∃ row column, parse "x := if iffy != \"a\" \x7b \"b\" \x7d else \x7b \"\" \x7d" =
      .error (.unreadable row column)) ∧
    parse "x := if ififfy != \"a\" \x7b \"b\" \x7d else \x7b \"\" \x7d" =
      .ok [⟨[], .assignment "x" (.cond .unequal (.var "ififfy") (.text "a") (.text "b") (.text ""))⟩] := by
  have ha := isLiteral_literal "a"
  have hb := isLiteral_literal "b"
  have hc := isLiteral_literal ""
  exact ⟨(parse_comparison (v := "iffy") .unequal ⟨'i', _, rfl, rfl, rfl⟩ ha hb hc).2 rfl,
    (parse_comparison (v := "ififfy") .unequal ⟨'i', _, rfl, rfl, rfl⟩ ha hb hc).1 rfl⟩

end Justfile
