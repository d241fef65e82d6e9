import Justfile.Proofs.ShellReader

/-!
# The word at the start of a text

Where a text goes on after a word, the word ends at the first character outside quotes that ends words. If it has
no expansions, it is what remains of these characters when quotes and escapes are removed.

* `wordAt`: the word that a text begins with, if it is read at all.
* `Unquotes`: the removal of quotes, one character at a time. It never adds letters (`Unquotes.length_le`).
* `Spells.of_step`, `unquotes_of_wordFrom`: a word without expansions is what is left when its quotes are removed.
* `wordFrom_single`, `wordFrom_double`, `wordFrom_escape`: how quotes are read.
* `Grows`: what is read of a command is not forgotten. `grows_step`: by one character, `grows_run`: by many.
* `wordAt_of_run`: a text that is one word is the first word of a longer text.
-/

namespace Justfile.Shell.Reader

/-- The characters that end a word outside quotes. -/
def enders : List Char :=
  [' ', '\t', '\n', ';', '&', '|', '<', '>', '(', ')']

/-- Whether no quote, expansion or operator is open. -/
def State.atRest (s : State) : Bool :=
  s.outer.isEmpty && s.frame.mode == .plain

/-- The word being read, if it is the first. -/
def State.firstWord? (s : State) : Option (List Piece) :=
  if s.frame.tokens.isEmpty then s.frame.word else none

/-- The first word of a text, of which the reader has read some. -/
def wordFrom (s : State) : List Char → Option (List Piece)
  | [] => if s.atRest then s.firstWord? else none
  | c :: cs =>
    if s.atRest && enders.contains c then s.firstWord? else (step s c).bind fun s' => wordFrom s' cs

/-- The word that a text begins with. -/
def wordAt (text : String) : Option (List Piece) :=
  wordFrom ⟨.fresh, []⟩ text.toList

/-- The modes of words without expansions. -/
def Mode.isQuoting : Mode → Bool
  | .plain => true
  | .single => true
  | .double => true
  | .escape _ => true
  | _ => false

/-- The letters that a character of a word stands for, and the mode after it. Expansions between double quotes are
refused. -/
def letters (m : Mode) (c : Char) : Option (Mode × List Char) :=
  match m with
  | .plain =>
    if c = '\'' then some (.single, [])
    else if c = '"' then some (.double, [])
    else if c = '\\' then some (.escape false, [])
    else some (.plain, [c])
  | .single => if c = '\'' then some (.plain, []) else some (.single, [c])
  | .double =>
    if c = '"' then some (.plain, [])
    else if c = '\\' then some (.escape true, [])
    else if c = '$' ∨ c = '`' then none
    else some (.double, [c])
  | .escape quoted =>
    if c = '\n' then some (.around quoted, [])
    else if !quoted then some (.plain, [c])
    else if ['$', '`', '"', '\\'].contains c then some (.double, [c])
    else some (.double, ['\\', c])
  | _ => none

/-- The reader has read the letters `ls` of a first word, and is in the mode `m`. -/
structure Spells (s : State) (m : Mode) (ls : List Char) : Prop where
  outer : s.outer = []
  tokens : s.frame.tokens = []
  word : s.frame.word.getD [] = ls.map .char
  mode : s.frame.mode = m
  quoting : m.isQuoting = true

/-- A word with a piece that is no letter. -/
theorem piece_ne_letters {p : Piece} (hp : ∀ c, p ≠ .char c) (ps : List Piece) (ls : List Char) :
    ps ++ [p] ≠ ls.map .char := by
  intro h
  have hmem : p ∈ ls.map Piece.char := h ▸ List.mem_append_right _ (List.mem_singleton_self p)
  obtain ⟨c, -, hc⟩ := List.mem_map.1 hmem
  exact hp c hc.symm

theorem map_char_injective : Function.Injective (List.map Piece.char) :=
  List.map_injective_iff.2 fun a b hab => by cases hab; rfl

/-- The letters of a word without its last ones. -/
theorem exists_letters {ps : List Piece} {out ls : List Char} (h : ps ++ out.map .char = ls.map .char) :
    ∃ front, ps = front.map .char ∧ ls = front ++ out := by
  obtain ⟨front, last, rfl, hfront, hlast⟩ := List.map_eq_append_iff.1 h.symm
  exact ⟨front, hfront.symm, by rw [map_char_injective hlast]⟩

theorem pop?_ne_letters {s s' : State} (h : s.pop? = some s') (ls : List Char) :
    s'.frame.word.getD [] ≠ ls.map .char := by
  unfold State.pop? at h
  split at h
  · cases h
  · cases h
    exact piece_ne_letters (fun _ hc => by cases hc) _ _

/-- Outside quotes a character keeps the commands around and the tokens so far, or it ends a substitution. -/
theorem plainStep_keeps {s s' : State} {c : Char} (h : plainStep s c = some s') :
    (s'.outer = s.outer ∧ ∃ ts, s'.frame.tokens = s.frame.tokens ++ ts) ∨ s.pop? = some s' := by
  unfold plainStep at h
  split at h
  · split at h
    all_goals first | exact .inr h | cases h
    all_goals first | exact .inl ⟨rfl, [], (List.append_nil _).symm⟩ | exact .inl ⟨rfl, _, rfl⟩
  · cases h
    exact .inl ⟨rfl, [], (List.append_nil _).symm⟩

/-- **What a character outside quotes does**, if it does not end the word. -/
theorem plainStep_cases {s s' : State} {c : Char} (h : plainStep s c = some s') (hc : c ∉ enders) :
    (c = '\'' ∧ s' = s.update (·.enter .single)) ∨ (c = '"' ∧ s' = s.update (·.enter .double)) ∨
      s' = s.update (·.goTo (.dollar false)) ∨ (c = '\\' ∧ s' = s.update (·.goTo (.escape false))) ∨
      (c ∉ special ∧ s' = s.update (·.add (.char c))) := by
  unfold plainStep at h
  split at h
  · split at h
    · exact .inl ⟨rfl, (Option.some.inj h).symm⟩
    · exact .inr (.inl ⟨rfl, (Option.some.inj h).symm⟩)
    · exact .inr (.inr (.inl (Option.some.inj h).symm))
    · exact .inr (.inr (.inr (.inl ⟨rfl, (Option.some.inj h).symm⟩)))
    all_goals first | exact absurd (by decide) hc | cases h
  · rename_i hspecial
    exact .inr (.inr (.inr (.inr ⟨hspecial, (Option.some.inj h).symm⟩)))

theorem letters_plain_of_not_mem {c : Char} (h : c ∉ special) : letters .plain c = some (.plain, [c]) := by
  have hne : ∀ d ∈ special, c ≠ d := fun d hd hc => h (hc ▸ hd)
  unfold letters
  simp only
  rw [if_neg (hne _ (by decide)), if_neg (hne _ (by decide)), if_neg (hne _ (by decide))]

theorem isQuoting_of_letters {m m' : Mode} {c : Char} {out : List Char} (h : letters m c = some (m', out)) :
    m.isQuoting = true := by
  cases m with
  | plain => rfl
  | single => rfl
  | double => rfl
  | escape quoted => rfl
  | _ => cases h

/-- Letters of a first word had been read before the character `c`, and `ls'` are these and those that `c` adds. -/
def AddsLetters (s : State) (c : Char) (m' : Mode) (ls' : List Char) : Prop :=
  ∃ m ls out, Spells s m ls ∧ letters m c = some (m', out) ∧ ls' = ls ++ out

namespace Spells

variable {s s' : State} {ts : List Token} {w : Option (List Piece)} {outer : List Frame} {c : Char} {m' : Mode}
  {ls' : List Char}

theorem isQuoting (h : Spells s' m' ls') : s'.frame.mode.isQuoting = true := by
  rw [h.mode]
  exact h.quoting

theorem of_letters {out : List Char} (h : Spells s' m' ls') (houter : s'.outer = s.outer)
    (htokens : s'.frame.tokens = s.frame.tokens)
    (hword : s'.frame.word.getD [] = s.frame.word.getD [] ++ out.map .char)
    (hc : letters s.frame.mode c = some (s'.frame.mode, out)) : AddsLetters s c m' ls' := by
  obtain ⟨front, hfront, rfl⟩ := exists_letters (hword.symm.trans h.word)
  rw [h.mode] at hc
  exact ⟨_, front, out, ⟨houter.symm.trans h.outer, htokens.symm.trans h.tokens, hfront, rfl, isQuoting_of_letters hc⟩,
    hc, rfl⟩

theorem of_plainStep (hstep : plainStep ⟨⟨ts, w, .plain⟩, outer⟩ c = some s')
    (hgoes : ¬ (State.atRest ⟨⟨ts, w, .plain⟩, outer⟩ && enders.contains c) = true) (h : Spells s' m' ls') :
    AddsLetters ⟨⟨ts, w, .plain⟩, outer⟩ c m' ls' := by
  have hout : outer = [] := by
    rcases plainStep_keeps hstep with ⟨hkept, -⟩ | hpop
    · exact hkept.symm.trans h.outer
    · exact absurd h.word (pop?_ne_letters hpop ls')
  have hc : c ∉ enders := fun hc => hgoes (by simpa [State.atRest, hout] using hc)
  rcases plainStep_cases hstep hc with ⟨rfl, rfl⟩ | ⟨rfl, rfl⟩ | rfl | ⟨rfl, rfl⟩ | ⟨hspecial, rfl⟩
  · exact h.of_letters rfl rfl (List.append_nil _).symm rfl
  · exact h.of_letters rfl rfl (List.append_nil _).symm rfl
  · exact absurd h.isQuoting Bool.false_ne_true
  · exact h.of_letters rfl rfl (List.append_nil _).symm rfl
  · exact h.of_letters rfl rfl rfl (letters_plain_of_not_mem hspecial)

theorem of_doubleStep (hstep : doubleStep ⟨⟨ts, w, .double⟩, outer⟩ c = some s') (h : Spells s' m' ls') :
    AddsLetters ⟨⟨ts, w, .double⟩, outer⟩ c m' ls' := by
  unfold doubleStep at hstep
  split at hstep
  · cases hstep
    exact h.of_letters rfl rfl (List.append_nil _).symm rfl
  · cases hstep
    exact absurd h.isQuoting Bool.false_ne_true
  · cases hstep
    exact h.of_letters rfl rfl (List.append_nil _).symm rfl
  · cases hstep
  · rename_i hquote hdollar hback htick
    cases hstep
    have hc : letters .double c = some (.double, [c]) := by
      unfold letters
      simp only
      rw [if_neg hquote, if_neg hback, if_neg (not_or.2 ⟨hdollar, htick⟩)]
    exact h.of_letters rfl rfl rfl hc

theorem of_escapeStep {quoted : Bool} (hstep : escapeStep ⟨⟨ts, w, .escape quoted⟩, outer⟩ quoted c = some s')
    (h : Spells s' m' ls') : AddsLetters ⟨⟨ts, w, .escape quoted⟩, outer⟩ c m' ls' := by
  unfold escapeStep at hstep
  split at hstep
  · rename_i hc
    cases hstep
    exact h.of_letters rfl rfl (List.append_nil _).symm (if_pos hc)
  · rename_i hc
    split at hstep
    · rename_i hq
      cases hstep
      exact h.of_letters rfl rfl rfl ((if_neg hc).trans (if_pos hq))
    · rename_i hq
      split at hstep
      · rename_i hmem
        cases hstep
        exact h.of_letters rfl rfl rfl ((if_neg hc).trans ((if_neg hq).trans (if_pos hmem)))
      · rename_i hmem
        cases hstep
        -- the backslash is a letter too
        exact h.of_letters rfl rfl (List.append_assoc _ _ _) ((if_neg hc).trans ((if_neg hq).trans (if_neg hmem)))

/-- **A step back**: where letters of a first word have been read after a character that does not end it, they had
been before it, and the character adds its letters. -/
theorem of_step (h : Spells s' m' ls') (hstep : step s c = some s')
    (hgoes : ¬ (s.atRest && enders.contains c) = true) : AddsLetters s c m' ls' := by
  obtain ⟨⟨ts, w, m⟩, outer⟩ := s
  unfold step at hstep
  cases m with
  | plain => exact h.of_plainStep hstep hgoes
  | single =>
    simp only at hstep
    split at hstep
    · rename_i hc
      cases hstep
      exact h.of_letters rfl rfl (List.append_nil _).symm (if_pos hc)
    · rename_i hc
      cases hstep
      exact h.of_letters rfl rfl rfl (if_neg hc)
  | double => exact h.of_doubleStep hstep
  | escape quoted => exact h.of_escapeStep hstep
  | dollar quoted =>
    simp only at hstep
    split at hstep
    · cases hstep
      exact absurd h.isQuoting Bool.false_ne_true
    · split at hstep
      · cases hstep
        exact absurd h.outer (List.cons_ne_nil _ _)
      · cases hstep
  | brace quoted name =>
    simp only [braceStep] at hstep
    split at hstep
    · split at hstep
      · cases hstep
        exact absurd h.word (piece_ne_letters (fun _ hc => by cases hc) _ _)
      · cases hstep
    · split at hstep
      · cases hstep
        exact absurd h.isQuoting Bool.false_ne_true
      · cases hstep
  | operator first =>
    -- an operator is a token, and tokens stay
    simp only at hstep
    split at hstep
    · cases hstep
      exact absurd h.tokens (List.append_ne_nil_of_right_ne_nil _ (List.cons_ne_nil _ _))
    · rcases plainStep_keeps hstep with ⟨-, more, hmore⟩ | hpop
      · have htokens := hmore.symm.trans h.tokens
        exact absurd (List.append_eq_nil_iff.1 (List.append_eq_nil_iff.1 htokens).1).2 (List.cons_ne_nil _ _)
      · exact absurd h.word (pop?_ne_letters hpop ls')

end Spells

/-- From the mode `m` on, the characters `cs` stand for the letters `ls`, and the mode after them is `m'`. -/
inductive Unquotes : Mode → List Char → Mode → List Char → Prop where
  | nil (m : Mode) : Unquotes m [] m []
  | cons {m m₁ m' : Mode} {c : Char} {cs out ls : List Char} (hc : letters m c = some (m₁, out))
      (hcs : Unquotes m₁ cs m' ls) : Unquotes m (c :: cs) m' (out ++ ls)

theorem spells_of_firstWord? {s : State} {x : List Char} (hrest : s.atRest = true)
    (h : s.firstWord? = some (x.map .char)) : Spells s .plain x := by
  unfold State.atRest at hrest
  rw [Bool.and_eq_true, List.isEmpty_iff, beq_iff_eq] at hrest
  unfold State.firstWord? at h
  split at h
  · rename_i htokens
    exact ⟨hrest.1, List.isEmpty_iff.1 htokens, by rw [h, Option.getD_some], hrest.2, rfl⟩
  · cases h

/-- **A word without expansions is what is left when its quotes are removed**, up to where it ends. -/
theorem unquotes_of_wordFrom {x : List Char} : ∀ (cs : List Char) {s : State},
    wordFrom s cs = some (x.map .char) → ∃ m ls w rest out, Spells s m ls ∧ cs = w ++ rest ∧
      (∀ c ∈ rest.head?, c ∈ enders) ∧ Unquotes m w .plain out ∧ x = ls ++ out
  | [], s, h => by
    rw [wordFrom] at h
    split at h
    · rename_i hrest
      refine ⟨.plain, x, [], [], [], spells_of_firstWord? hrest h, rfl, ?_, .nil _, (List.append_nil x).symm⟩
      exact fun c hc => by cases hc
    · cases h
  | c :: cs, s, h => by
    rw [wordFrom] at h
    split at h
    · rename_i hends
      rw [Bool.and_eq_true, List.contains_iff_mem] at hends
      refine ⟨.plain, x, [], c :: cs, [], spells_of_firstWord? hends.1 h, rfl, ?_, .nil _, (List.append_nil x).symm⟩
      rintro d ⟨⟩
      exact hends.2
    · rename_i hgoes
      obtain ⟨s', hstep, h⟩ := Option.bind_eq_some_iff.1 h
      obtain ⟨m', ls', w, rest, out', hspells, rfl, hrest, hout, rfl⟩ := unquotes_of_wordFrom cs h
      obtain ⟨m, ls, out, hbefore, hc, rfl⟩ := hspells.of_step hstep hgoes
      exact ⟨m, ls, c :: w, rest, out ++ out', hbefore, rfl, hrest, .cons hc hout, List.append_assoc _ _ _⟩

namespace Unquotes

variable {m m' : Mode} {as bs cs ls : List Char}

theorem append (h : Unquotes m (as ++ bs) m' ls) :
    ∃ m₁ l₁ l₂, Unquotes m as m₁ l₁ ∧ Unquotes m₁ bs m' l₂ ∧ ls = l₁ ++ l₂ := by
  induction as generalizing m ls with
  | nil => exact ⟨m, [], ls, .nil m, h, rfl⟩
  | cons a as ih =>
    cases h with
    | cons hc hcs =>
      obtain ⟨m₁, l₁, l₂, h₁, h₂, rfl⟩ := ih hcs
      exact ⟨m₁, _, l₂, .cons hc h₁, h₂, (List.append_assoc _ _ _).symm⟩

end Unquotes

/-- A backslash whose letter, if it is one, is not yet read. -/
def Mode.waiting : Mode → Nat
  | .escape _ => 1
  | _ => 0

theorem letters_length {m m' : Mode} {c : Char} {out : List Char} (h : letters m c = some (m', out)) :
    out.length + m'.waiting ≤ 1 + m.waiting := by
  unfold letters at h
  split at h
  · grind [Mode.waiting]
  · grind [Mode.waiting]
  · grind [Mode.waiting]
  · grind [Mode.waiting, Mode.around]
  · cases h

/-- **Without quotes a text is not longer.** -/
theorem Unquotes.length_le {m m' : Mode} {cs ls : List Char} (h : Unquotes m cs m' ls) :
    ls.length + m'.waiting ≤ cs.length + m.waiting := by
  induction h with
  | nil m => exact Nat.le_refl _
  | cons hc _ ih =>
    have hstep := letters_length hc
    rw [List.length_append, List.length_cons]
    omega

/-- The characters that have a meaning of their own in some kind of quotes. -/
def quotingChars : List Char :=
  ['\'', '"', '\\', '$', '`', '\n']

theorem letters_ordinary {m m' : Mode} {c : Char} {out : List Char} (hc : c ∉ quotingChars)
    (h : letters m c = some (m', out)) : m'.waiting = 0 ∧ ∃ front, out = front ++ [c] ∧ front.length ≤ m.waiting := by
  have hne : ∀ d ∈ quotingChars, c ≠ d := fun d hd hcd => hc (hcd ▸ hd)
  have h₁ := hne '\'' (by decide)
  have h₂ := hne '"' (by decide)
  have h₃ := hne '\\' (by decide)
  have h₄ := hne '\n' (by decide)
  unfold letters at h
  split at h
  · rw [if_neg h₁, if_neg h₂, if_neg h₃] at h
    cases h
    exact ⟨rfl, [], rfl, Nat.le_refl _⟩
  · rw [if_neg h₁] at h
    cases h
    exact ⟨rfl, [], rfl, Nat.le_refl _⟩
  · rw [if_neg h₂, if_neg h₃] at h
    split at h
    · cases h
    · cases h
      exact ⟨rfl, [], rfl, Nat.le_refl _⟩
  · rw [if_neg h₄] at h
    split at h
    · cases h
      exact ⟨rfl, [], rfl, Nat.zero_le _⟩
    · split at h
      · cases h
        exact ⟨rfl, [], rfl, Nat.zero_le _⟩
      · cases h
        exact ⟨rfl, ['\\'], rfl, Nat.le_refl _⟩
  · cases h

/-- **Ordinary characters stand for themselves**, after a backslash that is a letter if it stands before them. -/
theorem Unquotes.of_ordinary {m m' : Mode} {cs ls : List Char} (h : Unquotes m cs m' ls)
    (hcs : ∀ c ∈ cs, c ∉ quotingChars) : ∃ front, ls = front ++ cs ∧ front.length ≤ m.waiting := by
  induction h with
  | nil m => exact ⟨[], rfl, Nat.zero_le _⟩
  | cons hc hrest ih =>
    rw [List.forall_mem_cons] at hcs
    obtain ⟨hwaiting, front, rfl, hfront⟩ := letters_ordinary hcs.1 hc
    obtain ⟨front', rfl, hfront'⟩ := ih hcs.2
    obtain rfl : front' = [] := List.eq_nil_of_length_eq_zero (by omega)
    exact ⟨front, by simp, hfront⟩

section Reading

variable {ps : List Piece} {cs rest : List Char}

/-- The state of the reader in its first word. -/
def inWord (ps : List Piece) (m : Mode) : State := ⟨⟨[], some ps, m⟩, []⟩

theorem wordFrom_of_step {s s' : State} {c : Char} (hrest : s.atRest = false) (h : step s c = some s') :
    wordFrom s (c :: cs) = wordFrom s' cs := by
  rw [wordFrom, hrest, Bool.false_and, if_neg Bool.false_ne_true, h, Option.bind_some]

/-- A quote of either kind begins a word. -/
theorem wordFrom_open (cs : List Char) :
    wordFrom ⟨.fresh, []⟩ ('\'' :: cs) = wordFrom (inWord [] .single) cs ∧
      wordFrom ⟨.fresh, []⟩ ('"' :: cs) = wordFrom (inWord [] .double) cs :=
  ⟨rfl, rfl⟩

theorem wordFrom_newline (ps : List Piece) (rest : List Char) : wordFrom (inWord ps .plain) ('\n' :: rest) = some ps :=
  rfl

/-- Between apostrophes all but an apostrophe stands for itself. -/
theorem wordFrom_single (h : '\'' ∉ cs) :
    wordFrom (inWord ps .single) (cs ++ '\'' :: rest) = wordFrom (inWord (ps ++ cs.map .char) .plain) rest := by
  induction cs generalizing ps with
  | nil =>
    rw [List.map_nil, List.append_nil]
    exact wordFrom_of_step rfl rfl
  | cons c cs ih =>
    rw [List.mem_cons, not_or] at h
    have hstep : step (inWord ps .single) c = some (inWord (ps ++ [.char c]) .single) := if_neg (Ne.symm h.1)
    rw [List.cons_append, wordFrom_of_step rfl hstep, ih h.2, List.map_cons, List.append_assoc]
    rfl

theorem wordFrom_apostrophes (h : '\'' ∉ cs) :
    wordFrom ⟨.fresh, []⟩ ('\'' :: (cs ++ '\'' :: rest)) = wordFrom (inWord (cs.map .char) .plain) rest := by
  rw [(wordFrom_open _).1, wordFrom_single h, List.nil_append]

/-- What is left to be read of a word without expansions. -/
theorem unquotes_of_inWord {m : Mode} {front x : List Char}
    (h : wordFrom (inWord (front.map .char) m) cs = some (x.map .char)) : m.isQuoting = true ∧ ∃ w rest out,
      cs = w ++ rest ∧ (∀ c ∈ rest.head?, c ∈ enders) ∧ Unquotes m w .plain out ∧ x = front ++ out := by
  obtain ⟨m', ls, w, rest, out, hspells, hcs, hrest, hout, hx⟩ := unquotes_of_wordFrom _ h
  obtain rfl : m = m' := hspells.mode
  obtain rfl : front = ls := map_char_injective hspells.word
  exact ⟨hspells.quoting, w, rest, out, hcs, hrest, hout, hx⟩

/-- The characters with a meaning of their own between double quotes. -/
def doubleChars : List Char :=
  ['"', '\\', '$', '`']

theorem wordFrom_double (h : ∀ c ∈ cs, c ∉ doubleChars) :
    wordFrom (inWord ps .double) (cs ++ rest) = wordFrom (inWord (ps ++ cs.map .char) .double) rest := by
  induction cs generalizing ps with
  | nil => rw [List.map_nil, List.append_nil, List.nil_append]
  | cons c cs ih =>
    rw [List.forall_mem_cons] at h
    have hne : ∀ d ∈ doubleChars, c ≠ d := fun d hd hcd => h.1 (hcd ▸ hd)
    have hstep : step (inWord ps .double) c = some (inWord (ps ++ [.char c]) .double) := by
      show doubleStep _ c = _
      unfold doubleStep
      split
      · exact absurd rfl (hne '"' (by decide))
      · exact absurd rfl (hne '$' (by decide))
      · exact absurd rfl (hne '\\' (by decide))
      · exact absurd rfl (hne '`' (by decide))
      · rfl
    rw [List.cons_append, wordFrom_of_step rfl hstep, ih h.2, List.map_cons, List.append_assoc]
    rfl

/-- Between double quotes a backslash stays before an ordinary character. -/
theorem wordFrom_escape {e : Char} (he : e ∉ doubleChars) (hnewline : e ≠ '\n') :
    wordFrom (inWord ps .double) ('\\' :: e :: rest) =
      wordFrom (inWord (ps ++ ['\\', e].map .char) .double) rest := by
  have hfirst : step (inWord ps .double) '\\' = some (inWord ps (.escape true)) := rfl
  have hmem : ¬ ['$', '`', '"', '\\'].contains e = true := by
    rw [List.contains_iff_mem]
    intro hmem
    refine he ?_
    revert hmem
    simp only [doubleChars, List.mem_cons, List.not_mem_nil, or_false]
    tauto
  have hsecond : step (inWord ps (.escape true)) e = some (inWord (ps ++ ['\\', e].map .char) .double) := by
    show escapeStep _ true e = _
    unfold escapeStep
    rw [if_neg hnewline, if_neg (by decide), if_neg hmem]
    simp [inWord, State.update, Frame.goTo, Frame.add]
  rw [wordFrom_of_step rfl hfirst, wordFrom_of_step rfl hsecond]

end Reading

section Ends

/-- The outermost command that is being read. -/
def State.outermost (s : State) : Frame :=
  s.outer.getLast?.getD s.frame

/-- What a command was before some characters: its tokens stay, and so does its word while no token is added. -/
structure Grows (f f' : Frame) : Prop where
  tokens : ∃ ts, f'.tokens = f.tokens ++ ts
  word : f'.tokens = f.tokens → f.word.isSome = true → f'.word.isSome = true

namespace Grows

variable {f f' f'' : Frame}

theorem refl (f : Frame) : Grows f f := ⟨⟨[], (List.append_nil _).symm⟩, fun _ h => h⟩

theorem trans (h : Grows f f') (h' : Grows f' f'') : Grows f f'' := by
  obtain ⟨ts, hts⟩ := h.tokens
  obtain ⟨ts', hts'⟩ := h'.tokens
  refine ⟨⟨ts ++ ts', by rw [hts', hts, List.append_assoc]⟩, fun hsame hword => ?_⟩
  rw [hts', hts, List.append_assoc, List.append_right_eq_self, List.append_eq_nil_iff] at hsame
  obtain ⟨rfl, rfl⟩ := hsame
  rw [List.append_nil] at hts hts'
  exact h'.word hts' (h.word hts hword)

theorem of_tokens (htokens : f'.tokens = f.tokens) (hword : f.word.isSome = true → f'.word.isSome = true) :
    Grows f f' :=
  ⟨⟨[], by rw [htokens, List.append_nil]⟩, fun _ => hword⟩

theorem goTo (f : Frame) (m : Mode) : Grows f (f.goTo m) := of_tokens rfl fun h => h

theorem enter (f : Frame) (m : Mode) : Grows f (f.enter m) := of_tokens rfl fun _ => rfl

theorem add (f : Frame) (p : Piece) : Grows f (f.add p) := of_tokens rfl fun _ => rfl

/-- A word that is ended is a token. -/
theorem cut (f : Frame) : Grows f f.cut := by
  refine ⟨⟨_, rfl⟩, fun hsame hword => ?_⟩
  obtain ⟨ps, hps⟩ := Option.isSome_iff_exists.1 hword
  rw [Frame.cut, hps] at hsame
  exact absurd (List.append_right_eq_self.1 hsame) (List.cons_ne_nil _ _)

theorem emit (f : Frame) (op : List Char) : Grows f (f.emit op) :=
  ⟨⟨_, rfl⟩, fun hsame => absurd (List.append_right_eq_self.1 hsame) (List.cons_ne_nil _ _)⟩

end Grows

theorem grows_update {s : State} {g : Frame → Frame} (hg : ∀ f, Grows f (g f)) :
    Grows s.outermost (s.update g).outermost := by
  obtain ⟨f, outer⟩ := s
  cases outer with
  | nil => exact hg f
  | cons f' outer => exact .refl _

theorem grows_push (s : State) (quoted : Bool) : Grows s.outermost (s.push quoted).outermost := by
  obtain ⟨f, outer⟩ := s
  cases outer with
  | nil => exact .enter f _
  | cons f' outer =>
    have hsame : (State.push ⟨f, f' :: outer⟩ quoted).outermost = State.outermost ⟨f, f' :: outer⟩ := by
      unfold State.outermost State.push
      rw [List.getLast?_cons_cons]
      rfl
    rw [hsame]
    exact .refl _

theorem grows_pop? {s s' : State} (h : s.pop? = some s') : Grows s.outermost s'.outermost := by
  obtain ⟨f, outer⟩ := s
  cases outer with
  | nil => cases h
  | cons f' outer =>
    cases h
    cases outer with
    | nil => exact .add f' _
    | cons f'' outer =>
      have hsame : State.outermost ⟨f, f' :: f'' :: outer⟩ = State.outermost ⟨f', f'' :: outer⟩ := by
        unfold State.outermost
        rw [List.getLast?_cons_cons]
        rfl
      rw [hsame]
      exact .refl _

theorem grows_plainStep {s s' : State} {c : Char} (h : plainStep s c = some s') : Grows s.outermost s'.outermost := by
  unfold plainStep at h
  split at h
  · split at h
    · cases h
      exact grows_update fun f => .enter f _
    · cases h
      exact grows_update fun f => .enter f _
    · cases h
      exact grows_update fun f => .goTo f _
    · cases h
      exact grows_update fun f => .goTo f _
    · cases h
      exact grows_update .cut
    · cases h
      exact grows_update .cut
    · cases h
      exact grows_update fun f => (Grows.cut f).trans (.goTo _ _)
    · cases h
      exact grows_update fun f => (Grows.cut f).trans (.goTo _ _)
    · cases h
      exact grows_update fun f => (Grows.cut f).trans (.goTo _ _)
    · exact grows_pop? h
    · cases h
  · cases h
    exact grows_update fun f => .add f _

/-- **Nothing that is read is forgotten** of the outermost command. -/
theorem grows_step {s s' : State} {c : Char} (h : step s c = some s') : Grows s.outermost s'.outermost := by
  unfold step at h
  split at h
  · exact grows_plainStep h
  · split at h
    · cases h
      exact grows_update fun f => .goTo f _
    · cases h
      exact grows_update fun f => .add f _
  · unfold doubleStep at h
    split at h
    · cases h
      exact grows_update fun f => .goTo f _
    · cases h
      exact grows_update fun f => .goTo f _
    · cases h
      exact grows_update fun f => .goTo f _
    · cases h
    · cases h
      exact grows_update fun f => .add f _
  · unfold escapeStep at h
    split at h
    · cases h
      exact grows_update fun f => .goTo f _
    · split at h
      · cases h
        exact grows_update fun f => (Grows.goTo f _).trans (.add _ _)
      · split at h
        · cases h
          exact grows_update fun f => (Grows.goTo f _).trans (.add _ _)
        · cases h
          exact grows_update fun f => ((Grows.goTo f _).trans (.add _ _)).trans (.add _ _)
  · split at h
    · cases h
      exact grows_update fun f => .goTo f _
    · split at h
      · cases h
        exact grows_push s _
      · cases h
  · unfold braceStep at h
    split at h
    · split at h
      · cases h
        exact grows_update fun f => (Grows.goTo f _).trans (.add _ _)
      · cases h
    · split at h
      · cases h
        exact grows_update fun f => .goTo f _
      · cases h
  · split at h
    · cases h
      exact grows_update fun f => .emit f _
    · exact (grows_update fun f => .emit f _).trans (grows_plainStep h)

theorem grows_run {s s' : State} {cs : List Char} (h : run s cs = some s') : Grows s.outermost s'.outermost := by
  induction cs generalizing s with
  | nil =>
    cases h
    exact .refl _
  | cons c cs ih =>
    rw [run_cons, Option.bind_eq_some_iff] at h
    obtain ⟨s₁, hstep, hrun⟩ := h
    exact (grows_step hstep).trans (ih hrun)

/-- A word that is ended at rest is a token. -/
theorem tokens_of_ender {s s' : State} {c : Char} (h : step s c = some s') (hrest : s.atRest = true) (hc : c ∈ enders)
    (hword : s.frame.word.isSome = true) : s'.outermost.tokens ≠ [] := by
  obtain ⟨⟨ts, w, m⟩, outer⟩ := s
  unfold State.atRest at hrest
  rw [Bool.and_eq_true, List.isEmpty_iff, beq_iff_eq] at hrest
  obtain ⟨rfl, rfl⟩ := hrest
  obtain ⟨ps, rfl⟩ := Option.isSome_iff_exists.1 hword
  -- the characters that are not refused here end the word
  fin_cases hc <;> cases h
  all_goals exact List.append_ne_nil_of_right_ne_nil ts (List.cons_ne_nil _ _)

/-- **The first word goes on as long as it is read**: if some characters leave no token behind, none of them ends the
word. -/
theorem wordFrom_of_run {s s' : State} {cs : List Char} (h : run s cs = some s') (htokens : s'.outermost.tokens = [])
    (hword : s.outermost.word.isSome = true) (rest : List Char) :
    wordFrom s (cs ++ rest) = wordFrom s' rest := by
  induction cs generalizing s with
  | nil =>
    cases h
    rfl
  | cons c cs ih =>
    rw [run_cons, Option.bind_eq_some_iff] at h
    obtain ⟨s₁, hstep, hrun⟩ := h
    obtain ⟨ts₁, hts₁⟩ := (grows_run hrun).tokens
    obtain ⟨ts, hts⟩ := (grows_step hstep).tokens
    rw [htokens] at hts₁
    obtain ⟨hnone₁, -⟩ := List.append_eq_nil_iff.1 hts₁.symm
    rw [hnone₁] at hts
    obtain ⟨hnone, -⟩ := List.append_eq_nil_iff.1 hts.symm
    have hgoes : ¬ (s.atRest && enders.contains c) = true := by
      rw [Bool.and_eq_true, List.contains_iff_mem]
      rintro ⟨hrest, hc⟩
      have hframe : s.outermost = s.frame := by
        unfold State.atRest at hrest
        rw [Bool.and_eq_true, List.isEmpty_iff] at hrest
        rw [State.outermost, hrest.1]
        rfl
      rw [hframe] at hword
      exact tokens_of_ender hstep hrest hc hword hnone₁
    have hword₁ := (grows_step hstep).word (hnone₁.trans hnone.symm) hword
    rw [List.cons_append, wordFrom, if_neg hgoes, hstep, Option.bind_some]
    exact ih hrun hword₁

theorem wordFrom_ender {c : Char} (hc : c ∈ enders) (ps : List Piece) (rest : List Char) :
    wordFrom (inWord ps .plain) (c :: rest) = some ps := by
  have hends : ((inWord ps .plain).atRest && enders.contains c) = true :=
    Bool.and_eq_true_iff.2 ⟨rfl, List.contains_iff_mem.2 hc⟩
  rw [wordFrom, if_pos hends]
  rfl

/-- **A text that begins with a quote and is one word is the first word of a longer text**, if a character comes after
it that ends words. -/
theorem wordAt_of_run {text rest : String} {q c : Char} {cs more : List Char} {ps : List Piece}
    (htext : text.toList = q :: cs) (hq : q = '\'' ∨ q = '"')
    (hrun : run ⟨.fresh, []⟩ text.toList = some (inWord ps .plain)) (hrest : rest.toList = c :: more)
    (hc : c ∈ enders) : wordAt (text ++ rest) = some ps := by
  obtain ⟨m, hopen, hstep⟩ : ∃ m, (∀ cs, wordFrom ⟨.fresh, []⟩ (q :: cs) = wordFrom (inWord [] m) cs) ∧
      step ⟨.fresh, []⟩ q = some (inWord [] m) := by
    rcases hq with rfl | rfl
    · exact ⟨.single, fun cs => (wordFrom_open cs).1, rfl⟩
    · exact ⟨.double, fun cs => (wordFrom_open cs).2, rfl⟩
  rw [htext, run_cons_of_step hstep] at hrun
  rw [wordAt, String.toList_append, htext, hrest, List.cons_append, hopen, wordFrom_of_run hrun rfl rfl,
    wordFrom_ender hc]

/-- A word begins with a quote. -/
theorem chars_eq_cons : ∀ w : Word, ∃ q cs, w.chars = q :: cs ∧ (q = '\'' ∨ q = '"')
  | .literal _ => ⟨_, _, by rw [Word.chars]; rfl, .inl rfl⟩
  | .slash => ⟨_, _, by rw [Word.chars], .inl rfl⟩
  | .valueOf _ => ⟨_, _, by rw [Word.chars]; rfl, .inr rfl⟩
  | .test _ => ⟨_, _, by rw [Word.chars]; rfl, .inr rfl⟩
  | .call _ _ => ⟨_, _, by rw [Word.chars]; rfl, .inr rfl⟩
  | .command _ => ⟨_, _, by rw [Word.chars]; rfl, .inr rfl⟩
  | .self => ⟨_, _, by rw [Word.chars], .inr rfl⟩
  | .selfHere => ⟨_, _, by rw [Word.chars]; rfl, .inr rfl⟩
  | .append left right => by
    obtain ⟨q, cs, hleft, hq⟩ := chars_eq_cons left
    exact ⟨q, cs ++ right.chars, by rw [Word.chars, hleft, List.cons_append], hq⟩

end Ends

end Justfile.Shell.Reader
