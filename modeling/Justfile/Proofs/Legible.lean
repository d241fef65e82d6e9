import Justfile.Proofs.Reads
import Justfile.Proofs.Shape
import Justfile.Tree.Source

/-!
# Expressions that can be read back

`Legible` expressions are those whose written form the grammar reads back: their texts are printable
ASCII with line ends and tabulators, their names do not start like a conditional, and the left sides
of their sums and paths are operands.

* `written`: how an expression is written inside another, and `writtenAlone`: how it is written by
  itself. `sourceChars_eq` and `sourceChars_zero` say that this is what `sourceChars` gives.
* `literal_reads`, `backtick_reads`, `name_reads`: each lexeme is read back wherever it stands.
-/

namespace Justfile

namespace Expr

/-- Printable ASCII characters, line feed, carriage return and tabulator. -/
def isLegible (c : Char) : Bool :=
  (0x20 ≤ c.toNat && c.toNat ≤ 0x7E) || c == '\n' || c == '\r' || c == '\t'

/-- A name that does not start like a conditional. -/
def IsFreeName (name : String) : Prop :=
  IsName name ∧ ¬ ['i', 'f'] <+: name.toList

/-- A text, a variable, a call or a command. -/
def IsOperand : Expr → Prop
  | .text _ => True
  | .var _ => True
  | .call _ _ => True
  | .backtick _ => True
  | _ => False

mutual

/-- What is written for the expression can be read back. -/
def Legible : Expr → Prop
  | .text s => s.toList.all isLegible = true
  | .var name => IsFreeName name
  | .sum left right => left.IsOperand ∧ left.Legible ∧ right.Legible
  | .path left right => left.IsOperand ∧ left.Legible ∧ right.Legible
  | .backtick command => '`' ∉ command.toList ∧ '\n' ∉ command.toList
  | .call name args => IsFreeName name ∧ AllLegible args
  | .bareCall _ => False
  | .cond _ left right yes no => left.Legible ∧ right.Legible ∧ yes.Legible ∧ no.Legible
  | .looseCond _ _ _ => False
  | .stray _ => False

/-- All expressions of a list are legible. -/
def AllLegible : List Expr → Prop
  | [] => True
  | e :: rest => e.Legible ∧ AllLegible rest

end

mutual

theorem Legible.proper : ∀ {e : Expr}, e.Legible → e.Proper
  | .text _, _ => by rw [Proper]; exact True.intro
  | .var _, _ => by rw [Proper]; exact True.intro
  | .sum _ _, h => by
    rw [Legible] at h
    rw [Proper]
    exact ⟨h.2.1.proper, h.2.2.proper⟩
  | .path _ _, h => by
    rw [Legible] at h
    rw [Proper]
    exact ⟨h.2.1.proper, h.2.2.proper⟩
  | .backtick _, _ => by rw [Proper]; exact True.intro
  | .call _ _, h => by
    rw [Legible] at h
    rw [Proper]
    exact h.2.proper
  | .bareCall _, h => by rw [Legible] at h; exact h.elim
  | .cond _ _ _ _ _, h => by
    rw [Legible] at h
    rw [Proper]
    exact ⟨h.1.proper, h.2.1.proper, h.2.2.1.proper, h.2.2.2.proper⟩
  | .looseCond _ _ _, h => by rw [Legible] at h; exact h.elim
  | .stray _, h => by rw [Legible] at h; exact h.elim

theorem AllLegible.proper : ∀ {es : List Expr}, AllLegible es → AllProper es
  | [], _ => by rw [AllProper]; exact True.intro
  | _ :: _, h => by
    rw [AllLegible] at h
    rw [AllProper]
    exact ⟨h.1.proper, h.2.proper⟩

end

mutual

/-- The characters of an expression that stands inside another. -/
def written : Expr → List Char
  | .text s => literalSource s
  | .var name => name.toList
  | .call name args => name.toList ++ '(' :: (writtenArgs args ++ [')'])
  | .bareCall name => name.toList ++ ['(', ')']
  | .backtick command => '`' :: (command.toList ++ ['`'])
  | .sum left right => infixSource (written left) "+" (written right)
  | .path left right => infixSource (written left) "/" (written right)
  | .cond op left right yes no =>
    condSource op (written left) (written right) (written yes) (written no)
  | .looseCond _ _ _ => []
  | .stray _ => []

/-- The characters of arguments. -/
def writtenArgs : List Expr → List Char
  | [] => []
  | [e] => written e
  | e :: f :: rest => written e ++ ',' :: ' ' :: writtenArgs (f :: rest)

end

/-- The characters of an expression that stands alone. -/
def writtenAlone (e : Expr) : List Char :=
  match e with
  | .sum _ _ => '(' :: (e.written ++ [')'])
  | .path _ _ => '(' :: (e.written ++ [')'])
  | .cond _ _ _ _ _ => '(' :: (e.written ++ [')'])
  | _ => e.written

/-- An expression that stands alone is an operand, or it is in parentheses. -/
theorem Legible.alone_cases {e : Expr} (h : e.Legible) :
    (e.IsOperand ∧ writtenAlone e = written e) ∨ writtenAlone e = '(' :: (written e ++ [')']) := by
  cases e with
  | text s => exact .inl ⟨True.intro, rfl⟩
  | var n => exact .inl ⟨True.intro, rfl⟩
  | backtick command => exact .inl ⟨True.intro, rfl⟩
  | call n args => exact .inl ⟨True.intro, rfl⟩
  | sum left right => exact .inr rfl
  | path left right => exact .inr rfl
  | cond op left right yes no => exact .inr rfl
  | bareCall n => rw [Legible] at h; exact h.elim
  | looseCond test yes no => rw [Legible] at h; exact h.elim
  | stray datum => rw [Legible] at h; exact h.elim

theorem operandDepth_pos {depth : Int} (h : 0 ≤ depth) : 0 < operandDepth depth := by
  unfold operandDepth
  split <;> omega

theorem bracketed_of_pos {depth : Int} (h : 0 < depth) (s : List Char) : bracketed depth s = s := by
  unfold bracketed
  rw [if_neg (by omega)]

mutual

/-- **Inside another expression, an expression is written without parentheses.** -/
theorem sourceChars_eq : ∀ (e : Expr) (depth : Int), e.Proper → 0 < depth →
    sourceChars e depth = .ok (written e)
  | .text _, _, _, _ => by rw [sourceChars, written]; rfl
  | .var _, _, _, _ => by rw [sourceChars, written]; rfl
  | .call _ args, depth, h, hd => by
    rw [Proper] at h
    rw [sourceChars, sourceArgs_eq args (depth + 1) h (by omega), written]
    rfl
  | .bareCall _, _, h, _ => by rw [Proper] at h; exact h.elim
  | .backtick _, _, _, _ => by rw [sourceChars, written]; rfl
  | .sum left right, depth, h, hd => by
    rw [Proper] at h
    have hod := operandDepth_pos (Int.le_of_lt hd)
    rw [sourceChars, sourceChars_eq left _ h.1 hod, sourceChars_eq right _ h.2 hod, written,
      ← bracketed_of_pos hd (infixSource _ _ _)]
    rfl
  | .path left right, depth, h, hd => by
    rw [Proper] at h
    have hod := operandDepth_pos (Int.le_of_lt hd)
    rw [sourceChars, sourceChars_eq left _ h.1 hod, sourceChars_eq right _ h.2 hod, written,
      ← bracketed_of_pos hd (infixSource _ _ _)]
    rfl
  | .cond op left right yes no, depth, h, hd => by
    rw [Proper] at h
    have hod := operandDepth_pos (Int.le_of_lt hd)
    rw [sourceChars, sourceChars_eq left _ h.1 hod, sourceChars_eq right _ h.2.1 hod,
      sourceChars_eq yes _ h.2.2.1 hod, sourceChars_eq no _ h.2.2.2 hod, written,
      ← bracketed_of_pos hd (condSource _ _ _ _ _)]
    rfl
  | .looseCond _ _ _, _, h, _ => by rw [Proper] at h; exact h.elim
  | .stray _, _, h, _ => by rw [Proper] at h; exact h.elim

theorem sourceArgs_eq : ∀ (es : List Expr) (depth : Int), AllProper es → 0 < depth →
    sourceArgs es depth = .ok (writtenArgs es)
  | [], _, _, _ => by rw [sourceArgs, writtenArgs]; rfl
  | [e], depth, h, hd => by
    rw [AllProper] at h
    rw [sourceArgs, writtenArgs]
    exact sourceChars_eq e depth h.1 hd
  | e :: f :: rest, depth, h, hd => by
    rw [AllProper] at h
    rw [sourceArgs, sourceChars_eq e depth h.1 hd, sourceArgs_eq (f :: rest) depth h.2 hd, writtenArgs]
    rfl

end

/-- **Alone, an expression with operands is written in parentheses.** -/
theorem sourceChars_zero {e : Expr} (h : e.Proper) : sourceChars e 0 = .ok (writtenAlone e) := by
  have hd : (0 : Int) < operandDepth 0 := operandDepth_pos (Int.le_refl 0)
  cases e with
  | sum left right =>
    rw [Proper] at h
    rw [sourceChars, sourceChars_eq left _ h.1 hd, sourceChars_eq right _ h.2 hd, writtenAlone, written]
    rfl
  | path left right =>
    rw [Proper] at h
    rw [sourceChars, sourceChars_eq left _ h.1 hd, sourceChars_eq right _ h.2 hd, writtenAlone, written]
    rfl
  | cond op left right yes no =>
    rw [Proper] at h
    rw [sourceChars, sourceChars_eq left _ h.1 hd, sourceChars_eq right _ h.2.1 hd,
      sourceChars_eq yes _ h.2.2.1 hd, sourceChars_eq no _ h.2.2.2 hd, writtenAlone, written]
    rfl
  | call name args =>
    rw [Proper] at h
    show sourceChars (.call name args) 0 = .ok (written (.call name args))
    rw [sourceChars, sourceArgs_eq args _ h (by omega), written]
    rfl
  | text s =>
    show sourceChars (.text s) 0 = .ok (written (.text s))
    rw [sourceChars, written]
    rfl
  | var name =>
    show sourceChars (.var name) 0 = .ok (written (.var name))
    rw [sourceChars, written]
    rfl
  | backtick command =>
    show sourceChars (.backtick command) 0 = .ok (written (.backtick command))
    rw [sourceChars, written]
    rfl
  | bareCall name => rw [Proper] at h; exact h.elim
  | looseCond test yes no => rw [Proper] at h; exact h.elim
  | stray datum => rw [Proper] at h; exact h.elim

/-- How a character of a text literal is written. -/
def spelled (c : Char) : List Char :=
  (Text.escapedChar c).flatMap fun c => if c = '"' then ['\\', '"'] else [c]

theorem literalSource_eq (s : String) :
    literalSource s = '"' :: (s.toList.flatMap spelled ++ ['"']) := by
  unfold literalSource Text.escaped
  rw [List.flatMap_assoc]
  rfl

/-- The escapes of text literals: the character and what follows the backslash. -/
def escapes : List (Char × Char) :=
  [('\\', '\\'), ('"', '"'), ('\n', 'n'), ('\r', 'r'), ('\t', 't')]

/-- A spelling of a character that a text literal reads back: an escape, or the character itself. -/
def IsSpelling (c : Char) (s : List Char) : Prop :=
  (∃ d, (c, d) ∈ escapes ∧ s = ['\\', d]) ∨ (s = [c] ∧ c ≠ '\\' ∧ c ≠ '"')

/-- A legible character is written as an escape or as itself. -/
theorem spelled_cases {c : Char} (h : isLegible c = true) :
    (∃ d, (c, d) ∈ escapes ∧ spelled c = ['\\', d]) ∨
      (spelled c = [c] ∧ c ≠ '\\' ∧ c ≠ '"' ∧ c ≠ '\n') := by
  by_cases h₁ : c = '\\'
  · subst h₁; exact .inl ⟨'\\', by decide, by decide⟩
  by_cases h₂ : c = '"'
  · subst h₂; exact .inl ⟨'"', by decide, by decide⟩
  by_cases h₃ : c = '\n'
  · subst h₃; exact .inl ⟨'n', by decide, by decide⟩
  by_cases h₄ : c = '\r'
  · subst h₄; exact .inl ⟨'r', by decide, by decide⟩
  by_cases h₅ : c = '\t'
  · subst h₅; exact .inl ⟨'t', by decide, by decide⟩
  refine .inr ⟨?_, h₁, h₂, h₃⟩
  have hrange : (0x20 ≤ c.toNat && c.toNat < 0x7F) = true := by
    simp only [isLegible, h₃, h₄, h₅, Bool.or_eq_true, Bool.and_eq_true, decide_eq_true_eq,
      beq_iff_eq, or_false] at h
    simp only [Bool.and_eq_true, decide_eq_true_eq]
    omega
  simp only [spelled, Text.escapedChar, Text.shortEscape?, h₁, h₂, h₃, h₄, h₅, hrange, if_true,
    if_false, List.flatMap_cons, List.flatMap_nil, List.append_nil]

theorem isSpelling_spelled {c : Char} (h : isLegible c = true) : IsSpelling c (spelled c) := by
  rcases spelled_cases h with hd | ⟨hs, hb, hq, -⟩
  · exact .inl hd
  · exact .inr ⟨hs, hb, hq⟩

end Expr

namespace Parsing

open Justfile.Parsing.Parser Justfile.Expr

variable {ω : Type} {rest : List Char}

/-- A word of two characters whose second one differs. -/
theorem word_refuses_second {c d x : Char} {cs : List Char} (s : String) (hs : s.toList = [c, d])
    (h : d ≠ x) : Refuses (word s : Parser ω String) (c :: x :: cs) := by
  refine .word ?_
  rw [hs]
  simp only [after?, if_true, h, if_false]

theorem escape_reads {c d : Char} (h : (c, d) ∈ escapes) (rest : List Char) :
    Reads (escape : Parser ω Char) ('\\' :: d :: rest) c rest := by
  -- an escape is refused by those before it because of its second character
  have hno : ∀ (s : String) (x y : Char), s.toList = ['\\', x] → x ≠ d →
      Refuses ((fun _ => y) <$> (word s : Parser ω String)) ('\\' :: d :: rest) :=
    fun s x y hs hx => .map _ (word_refuses_second s hs hx)
  have hyes : ∀ (s : String) (y : Char), s.toList = ['\\', d] →
      Reads ((fun _ => y) <$> (word s : Parser ω String)) ('\\' :: d :: rest) y rest := by
    intro s y hs
    have hr := Reads.word (ω := ω) s rest
    rw [hs] at hr
    exact hr.map _
  unfold escape
  simp only [escapes, List.mem_cons, Prod.mk.injEq, List.not_mem_nil, or_false] at h
  rcases h with ⟨rfl, rfl⟩ | ⟨rfl, rfl⟩ | ⟨rfl, rfl⟩ | ⟨rfl, rfl⟩ | ⟨rfl, rfl⟩
  · exact .orElse_left (hyes _ _ rfl)
  · exact .orElse_right (hno _ _ _ rfl (by decide)) (.orElse_left (hyes _ _ rfl))
  · exact .orElse_right (hno _ _ _ rfl (by decide)) (.orElse_right (hno _ _ _ rfl (by decide))
      (.orElse_left (hyes _ _ rfl)))
  · exact .orElse_right (hno _ _ _ rfl (by decide)) (.orElse_right (hno _ _ _ rfl (by decide))
      (.orElse_right (hno _ _ _ rfl (by decide)) (.orElse_left (hyes _ _ rfl))))
  · exact .orElse_right (hno _ _ _ rfl (by decide)) (.orElse_right (hno _ _ _ rfl (by decide))
      (.orElse_right (hno _ _ _ rfl (by decide)) (.orElse_right (hno _ _ _ rfl (by decide))
        (hyes _ _ rfl))))

theorem escape_refuses {c : Char} {cs : List Char} (h : c ≠ '\\') :
    Refuses (escape : Parser ω Char) (c :: cs) := by
  have hno : ∀ (s : String) (y : Char), s.toList.head? = some '\\' →
      Refuses ((fun _ => y) <$> (word s : Parser ω String)) (c :: cs) :=
    fun s y hs => .map _ (word_refuses s hs h.symm)
  unfold escape
  exact .orElse (hno _ _ rfl) (.orElse (hno _ _ rfl) (.orElse (hno _ _ rfl)
    (.orElse (hno _ _ rfl) (hno _ _ rfl))))

/-- A spelling of a character is read back and does not end the literal. -/
theorem spelling_reads {c : Char} {s : List Char} (h : IsSpelling c s) (cs : List Char) :
    Refuses (word "\"" : Parser ω String) (s ++ cs) ∧
      Reads (escape <|> anyChar : Parser ω Char) (s ++ cs) c cs ∧ s ≠ [] := by
  rcases h with ⟨d, hd, rfl⟩ | ⟨rfl, hb, hq⟩
  · exact ⟨word_refuses _ rfl (by decide), .orElse_left (escape_reads hd cs), List.cons_ne_nil _ _⟩
  · exact ⟨word_refuses _ rfl hq.symm, .orElse_right (escape_refuses hb) (.satisfy rfl cs),
      List.cons_ne_nil _ _⟩

/-- Three marks do not start a text between single ones. -/
theorem after?_three {m : Char} {body : List Char} (hbody : Avoids (· == m) body)
    (hrest : Avoids (· == m) rest) : after? [m, m, m] (m :: (body ++ m :: rest)) = none := by
  cases body with
  | cons c cs =>
    have hc : m ≠ c := fun h => by simpa [h] using hbody c rfl
    simp only [List.cons_append, after?, if_true, hc, if_false]
  | nil =>
    cases rest with
    | nil => simp only [List.nil_append, after?, if_true]
    | cons c cs =>
      have hc : m ≠ c := fun h => by simpa [h] using hrest c rfl
      simp only [List.nil_append, after?, if_true, hc, if_false]

/-- What may follow an operand: a blank, a parenthesis that closes, a comma, a line end, nothing. -/
def Stops (rest : List Char) : Prop :=
  ∀ c ∈ rest.head?, c = ' ' ∨ c = ')' ∨ c = ',' ∨ c = '\n'

theorem Stops.avoids {ok : Char → Bool} (h : Stops rest) (hb : ok ' ' = false) (hp : ok ')' = false)
    (hc : ok ',' = false) (hn : ok '\n' = false) : Avoids ok rest := by
  intro c hc
  rcases h c hc with rfl | rfl | rfl | rfl <;> assumption

variable [Listener ω]

/-- **A name is read up to where it ends.** -/
theorem name_reads {n : String} (h : IsName n) (hrest : Avoids isNameRest rest) :
    Reads (name : Parser ω String) (n.toList ++ rest) n rest := by
  obtain ⟨c, cs, hn, hc, hcs⟩ := h
  have hr : Reads (span isNameStart isNameRest : Parser ω (List Char)) (c :: (cs ++ rest)) (c :: cs) rest :=
    .span hc hcs hrest
  have hn' : n = String.ofList (c :: cs) := by rw [← hn, String.ofList_toList]
  rw [hn, List.cons_append, hn']
  exact (hr.map String.ofList).traced

theorem name_refuses {c : Char} {cs : List Char} (h : isNameStart c = false) :
    Refuses (name : Parser ω String) (c :: cs) := by
  refine Refuses.traced (.map _ (.span fun d hd => ?_))
  cases hd
  exact h

/-- **A text literal is read back**, however its characters are spelled. -/
theorem literal_reads {s : String} {spell : Char → List Char}
    (h : ∀ c ∈ s.toList, IsSpelling c (spell c)) (hrest : Avoids (· == '"') rest) :
    Reads (stringLiteral : Parser ω String) ('"' :: (s.toList.flatMap spell ++ '"' :: rest)) s rest := by
  have hquote : Reads (word "\"" : Parser ω String) ('"' :: rest) "\"" rest := Reads.word "\"" rest
  have hbody : Gathers (escape <|> anyChar : Parser ω Char) (word "\"")
      (s.toList.flatMap spell ++ '"' :: rest) s.toList ('"' :: rest) :=
    .flatMap hquote s.toList fun c hc cs => spelling_reads (h c hc) cs
  have hcooked : Reads (cookedBetween "\"" : Parser ω (List Char))
      ('"' :: (s.toList.flatMap spell ++ '"' :: rest)) s.toList rest :=
    (Reads.word "\"" _).bind (hbody.untilEnd.bind (hquote.bind (.pure _ _)))
  -- three quotes would need a quote at the start of the body, or after an empty one
  have hhead : Avoids (· == '"') (s.toList.flatMap spell) := by
    intro c hc
    cases hs : s.toList with
    | nil => rw [hs] at hc; cases hc
    | cons x xs =>
      rw [hs, List.flatMap_cons] at hc
      rcases h x (by rw [hs]; exact List.mem_cons_self) with ⟨d, -, hx⟩ | ⟨hx, -, hq⟩
      · rw [hx] at hc; cases hc; rfl
      · rw [hx] at hc; cases hc; exact beq_false_of_ne hq
  have hthree := after?_three hhead hrest
  refine Reads.traced (.orElse_right (.traced (.map _ (.bind (.word hthree)))) (.orElse_left ?_))
  have hread := hcooked.map String.ofList
  rw [String.ofList_toList] at hread
  exact hread.traced

theorem stringLiteral_reads {s : String} (h : s.toList.all isLegible = true) (hrest : Stops rest) :
    Reads (stringLiteral : Parser ω String) (literalSource s ++ rest) s rest := by
  rw [literalSource_eq, List.cons_append, List.append_assoc, List.singleton_append]
  exact literal_reads (fun c hc => isSpelling_spelled (List.all_eq_true.1 h c hc))
    (hrest.avoids rfl rfl rfl rfl)

/-- **A command is read back.** -/
theorem backtick_reads {command : String} (h : '`' ∉ command.toList) (hrest : Stops rest) :
    Reads (backtick : Parser ω Expr) ('`' :: (command.toList ++ '`' :: rest)) (.backtick command) rest ∧
      Refuses (indentedBacktick : Parser ω Expr) ('`' :: (command.toList ++ '`' :: rest)) := by
  have hne : ∀ c ∈ command.toList, c ≠ '`' := fun c hc hcm => h (hcm ▸ hc)
  have hmark : Reads (word "`" : Parser ω String) ('`' :: rest) "`" rest := Reads.word "`" rest
  have hbody : Gathers (anyChar : Parser ω Char) (word "`")
      (command.toList.flatMap (fun c => [c]) ++ '`' :: rest) command.toList ('`' :: rest) :=
    .flatMap hmark command.toList fun c hc cs =>
      ⟨word_refuses _ rfl (hne c hc).symm, .satisfy rfl cs, List.cons_ne_nil _ _⟩
  rw [List.flatMap_singleton'] at hbody
  have hbetween : Reads (between "`" : Parser ω (List Char))
      ('`' :: (command.toList ++ '`' :: rest)) command.toList rest :=
    (Reads.word "`" _).bind (hbody.untilEnd.bind (hmark.bind (.pure _ _)))
  have hhead : Avoids (· == '`') command.toList := fun c hc =>
    beq_false_of_ne (hne c (List.mem_of_mem_head? hc))
  constructor
  · have hread := hbetween.map fun cs => Expr.backtick (String.ofList cs)
    rw [String.ofList_toList] at hread
    exact hread.traced
  · exact .traced (.map _ (.bind (.word (after?_three hhead (hrest.avoids rfl rfl rfl rfl)))))

end Parsing

end Justfile
