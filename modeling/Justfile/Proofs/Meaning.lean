import Justfile.Proofs.Form
import Justfile.Proofs.Session
import Justfile.Proofs.ShellReader

/-!
# Expressions keep their meaning

`meaning` says what an expression stands for in a script, as pieces of a shell word. The text that
an expression is evaluated to is read by a shell as one word with just these pieces, however deep
the expression is and whatever characters its texts have.

* `isShellName_shellName`: names get shell names.
* `wordOf_named`: a named expression has a word, with its meaning.
* `read_evaluate`: a shell reads the text of the word as the meaning.
-/

namespace Justfile.Shell

open Names Reader Justfile.Parsing

section Meaning

variable (σ : String → String)

mutual

/-- What an expression stands for, where `σ` gives the shell names: the letters of texts, the values
of variables, and the outputs of functions, conditionals and commands. -/
def meaning : Expr → List Piece
  | .text s => lettersOf s
  | .var name => [.value (σ ("VAR_" ++ name)) false]
  | .sum left right => meaning left ++ meaning right
  | .path left right => meaning left ++ lettersOf "/" ++ meaning right
  | .backtick command => [.output (shellCallTokens command) false]
  | .call name args => [.output (.word (lettersOf (σ name)) :: meanings args) false]
  | .bareCall name => [.output [.word (lettersOf (σ name))] false]
  | .cond op left right yes no =>
    [.output [.word (lettersOf (σ (testName (.cond op left right yes no))))] false]
  | .looseCond test yes no =>
    [.output [.word (lettersOf (σ (testName (.looseCond test yes no))))] false]
  | .stray _ => []

/-- Expressions as the arguments of a call: one word each, in order. -/
def meanings : List Expr → List Token
  | [] => []
  | e :: rest => .word (meaning e) :: meanings rest

end

end Meaning

/-- A name stays one with more characters of names after it. -/
theorem isName_append {lead s : String} (hl : IsName lead) (hs : s.toList.all isNameRest = true) :
    IsName (lead ++ s) := by
  obtain ⟨c, cs, hlead, hc, hcs⟩ := hl
  refine ⟨c, cs ++ s.toList, by rw [String.toList_append, hlead, List.cons_append], hc, ?_⟩
  rw [List.all_append, hcs, hs]
  rfl

theorem isName_variable {name : String} (h : IsName name) : IsName ("VAR_" ++ name) :=
  isName_append ⟨'V', ['A', 'R', '_'], rfl, rfl, rfl⟩ (isNameRest_of_isName h)

theorem isNameRest_hexDigit {n : Nat} (h : n < 16) : isNameRest (Text.hexDigit n) = true := by
  interval_cases n <;> rfl

theorem isNameRest_hex (width n : Nat) : (Text.hex width n).all isNameRest = true := by
  induction width generalizing n with
  | zero => rfl
  | succ width ih =>
    have hd := isNameRest_hexDigit (Nat.mod_lt n (show 0 < 16 by omega))
    simp only [Text.hex, List.all_append, ih, List.all_cons, hd, List.all_nil, Bool.and_self]

/-- The names of the functions of conditionals are names. -/
theorem isName_testName (e : Expr) : IsName (testName e) := by
  refine isName_append ⟨'i', ['f', '_'], rfl, rfl, rfl⟩ ?_
  rw [List.all_eq_true]
  intro c hc
  unfold Digest.short at hc
  rw [String.toList_ofList] at hc
  have hc := List.mem_of_mem_take hc
  unfold Digest.hexDigest Digest.hexOfBytes at hc
  rw [String.toList_ofList] at hc
  obtain ⟨w, -, hc⟩ := List.mem_flatMap.1 hc
  exact List.all_eq_true.1 (isNameRest_hex 8 w.toNat) c hc

theorem isShellName_dashless {name : String} (h : IsName name) :
    isShellName (dashless name).toList = true := by
  obtain ⟨c, cs, hs, hc, hcs⟩ := h
  have hc' : c ≠ '-' := by rintro rfl; exact absurd hc (by decide)
  simp only [dashless, String.toList_ofList, hs, List.map_cons, hc', if_false, isShellName,
    List.all_map, Bool.and_eq_true, List.all_eq_true]
  refine ⟨hc, fun d hd => ?_⟩
  have := List.all_eq_true.1 hcs d hd
  by_cases hdash : d = '-'
  · subst hdash; rfl
  · simp only [isNameRest, Bool.or_eq_true, beq_iff_eq, hdash, or_false] at this
    simpa [hdash, isShellChar] using this

theorem isShellName_append {lead s : List Char} (h : isShellName lead = true)
    (hs : s.all isShellChar = true) : isShellName (lead ++ s) = true := by
  cases lead with
  | nil => cases h
  | cons c cs =>
    simp only [isShellName, Bool.and_eq_true] at h
    simp only [List.cons_append, isShellName, List.all_append, h.1, h.2, hs, Bool.and_self]

theorem isShellChar_toString (n : Nat) : (toString n).toList.all isShellChar = true := by
  refine List.all_eq_true.2 fun c hc => ?_
  have hr : (toString n).toList = Nat.toDigits 10 n := Nat.toList_repr
  rw [hr] at hc
  have := Nat.isDigit_of_mem_toDigits (by decide) (by decide) hc
  simp [isShellChar, Char.isAlphanum, this]

/-- **Names get shell names.** -/
theorem isShellName_shellName (t : Names) {name : String} (h : IsName name) :
    isShellName (t.shellName name).toList = true := by
  obtain ⟨k, -, hk, -, -⟩ := shellName_least t name
  have hd := isShellName_dashless h
  rw [hk]
  cases k with
  | zero => exact hd
  | succ k =>
    simp only [candidate, String.toList_append]
    exact isShellName_append (isShellName_append hd rfl) (isShellChar_toString (k + 2))

variable {σ : String → String}

mutual

/-- **A named expression has a word, and the word has its meaning.** -/
theorem wordOf_named (hσ : ∀ n, IsName n → isShellName (σ n).toList = true) :
    ∀ e : Expr, e.Named → ∃ w, wordOf σ e = .ok w ∧ w.Safe ∧ w.pieces = meaning σ e
  | .text s, _ => ⟨.literal s, by rw [wordOf], by rw [Word.Safe] <;> simp, by rw [Word.pieces, meaning]⟩
  | .var name, h => by
    rw [Expr.Named] at h
    refine ⟨_, by rw [wordOf], ?_, by rw [Word.pieces, meaning]⟩
    rw [Word.Safe]
    exact hσ _ (isName_variable h)
  | .sum left right, h => by
    rw [Expr.Named] at h
    obtain ⟨l, hl, hls, hlp⟩ := wordOf_named hσ left h.1
    obtain ⟨r, hr, hrs, hrp⟩ := wordOf_named hσ right h.2
    refine ⟨.append l r, by rw [wordOf, hl, hr]; rfl, by rw [Word.Safe]; exact ⟨hls, hrs⟩, ?_⟩
    rw [Word.pieces, hlp, hrp, meaning]
  | .path left right, h => by
    rw [Expr.Named] at h
    obtain ⟨l, hl, hls, hlp⟩ := wordOf_named hσ left h.1
    obtain ⟨r, hr, hrs, hrp⟩ := wordOf_named hσ right h.2
    refine ⟨.append l (.append .slash r), by rw [wordOf, hl, hr]; rfl, ?_, ?_⟩
    · simp only [Word.Safe]; exact ⟨hls, trivial, hrs⟩
    · simp only [Word.pieces, hlp, hrp, meaning, List.append_assoc]
  | .backtick command, _ =>
    ⟨.command command, by rw [wordOf], by rw [Word.Safe] <;> simp, by rw [Word.pieces, meaning]⟩
  | .call name args, h => by
    rw [Expr.Named] at h
    obtain ⟨ws, hws, hwss, hwsp⟩ := wordsOf_named hσ args h.2
    refine ⟨.call (σ name) ws, by rw [wordOf, hws]; rfl, ?_, ?_⟩
    · rw [Word.Safe]; exact ⟨hσ _ h.1, hwss⟩
    · rw [Word.pieces, hwsp, meaning]
  | .bareCall name, h => by
    rw [Expr.Named] at h
    refine ⟨.call (σ name) [], by rw [wordOf], ?_, by rw [Word.pieces, Word.argTokens, meaning]⟩
    rw [Word.Safe, Word.AllSafe]
    exact ⟨hσ _ h, trivial⟩
  | .cond op left right yes no, _ => by
    refine ⟨_, by rw [wordOf], ?_, by rw [Word.pieces, meaning]⟩
    rw [Word.Safe]
    exact hσ _ (isName_testName _)
  | .looseCond _ _ _, h => by rw [Expr.Named] at h; exact h.elim
  | .stray _, h => by rw [Expr.Named] at h; exact h.elim

/-- Named expressions have words, one for each, with their meanings. -/
theorem wordsOf_named (hσ : ∀ n, IsName n → isShellName (σ n).toList = true) :
    ∀ es : List Expr, Expr.AllNamed es →
      ∃ ws, wordsOf σ es = .ok ws ∧ Word.AllSafe ws ∧ Word.argTokens ws = meanings σ es
  | [], _ => ⟨[], by rw [wordsOf], by rw [Word.AllSafe]; trivial, by rw [Word.argTokens, meanings]⟩
  | e :: rest, h => by
    rw [Expr.AllNamed] at h
    obtain ⟨w, hw, hwsafe, hwp⟩ := wordOf_named hσ e h.1
    obtain ⟨ws, hws, hwss, hwsp⟩ := wordsOf_named hσ rest h.2
    refine ⟨w :: ws, by rw [wordsOf, hw, hws]; rfl, by rw [Word.AllSafe]; exact ⟨hwsafe, hwss⟩, ?_⟩
    rw [Word.argTokens, hwp, hwsp, meanings]

end

/-- **A shell reads an evaluated expression as its meaning.** Every expression in a justfile that can
be read, evaluated after any session with the table of names, gives a text that a shell reads as one
word. Its pieces are the meaning of the expression for the names of the table, then and at any later
time of the session. -/
theorem read_evaluate (calls : List Call) {text : String} {items : List Item} {e : Expr}
    (hparse : parse text = .ok items) (he : e ∈ exprNodes items) :
    ∃ w, (evaluate e).result (tableAfter calls .empty) = .ok w ∧
      ∀ more, read w.text =
        some [.word (meaning (tableAfter (calls ++ .ofExpr e :: more) .empty).shellName e)] := by
  have hnamed := named_of_mem_exprNodes hparse he
  have hlater : ∀ more,
      (evaluate e).result (tableAfter calls .empty) =
        wordOf (tableAfter (calls ++ .ofExpr e :: more) .empty).shellName e := by
    intro more
    refine (evaluate_follows e).result _ _ (settled_empty.tableAfter _) ?_
    rw [tableAfter_append, tableAfter_ofExpr]
    exact within_tableAfter more _
  have hword : ∀ u : Names, ∃ w, wordOf u.shellName e = .ok w ∧ w.Safe ∧
      w.pieces = meaning u.shellName e :=
    fun u => wordOf_named (fun n hn => isShellName_shellName u hn) e hnamed
  obtain ⟨w, hw, -, -⟩ := hword (tableAfter (calls ++ [.ofExpr e]) .empty)
  refine ⟨w, (hlater []).trans hw, fun more => ?_⟩
  obtain ⟨w', hw', hsafe, hpieces⟩ := hword (tableAfter (calls ++ .ofExpr e :: more) .empty)
  have hww : w = w' := by
    have h := (hlater []).symm.trans (hlater more)
    rw [hw, hw'] at h
    exact Except.ok.inj h
  rw [hww, read_word hsafe, hpieces]

/-- A justfile with quotes in texts, nested calls, an empty text and a name with a dash. -/
def quotingSample : String := "x := f(\"it's \\\"\" + \"\", 'b' / a-b) + `ls '$HOME'`"

/-- Its only expression. -/
def quotingExpr : Expr :=
  .sum (.call "f" [.sum (.text "it's \"") (.text ""), .path (.text "b") (.var "a-b")])
    (.backtick "ls '$HOME'")

theorem read_evaluate_sample :
    parse quotingSample = .ok [⟨[], .assignment "x" quotingExpr⟩] ∧
    ∃ w, (evaluate quotingExpr).result (tableAfter [.ofVariable "a_b"] .empty) = .ok w ∧
      ∀ more, read w.text = some [.word (meaning
        (tableAfter ([.ofVariable "a_b"] ++ .ofExpr quotingExpr :: more) .empty).shellName
        quotingExpr)] := by
  have hparse : parse quotingSample = .ok [⟨[], .assignment "x" quotingExpr⟩] := rfl
  have hmem : quotingExpr ∈ exprNodes [⟨[], .assignment "x" quotingExpr⟩] := by
    simp [exprNodes, Declaration.exprs, Expr.self_mem_nodes]
  exact ⟨hparse, read_evaluate [.ofVariable "a_b"] hparse hmem⟩

end Justfile.Shell
