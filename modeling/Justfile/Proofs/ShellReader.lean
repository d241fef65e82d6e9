import Mathlib
import Justfile.Shell.Word

/-!
# How a shell reads words

A reader of shell text by the quoting rules of POSIX shells, one character at a time. Apostrophes
keep everything between them; between double quotes references `${NAME}` and substitutions
`$( ... )` are expanded; a substitution starts quoting anew, to any depth. Outside quotes blanks end
words and `|`, `&`, `;` make operators. Other characters with a meaning of their own, and other
expansions, are refused.

* `read`: the tokens of a text.
* `Word.pieces`: what a word is made of.
* `run_word`: at whatever depth a `Word` is read, its text adds its pieces to the word being read.
* `read_word`: the text of a `Word` is one word, with its pieces.
-/

namespace Justfile.Shell

namespace Reader

mutual

/-- A piece of a word. A literal text is the run of its characters, so literals that stand next to
each other are one. Values and outputs outside double quotes are split into fields. -/
inductive Piece where
  | char (c : Char)
  | value (name : String) (split : Bool)
  | output (command : List Token) (split : Bool)

/-- A token of a command. -/
inductive Token where
  | word (pieces : List Piece)
  | operator (op : String)

end

/-- Where in a word the reader is. -/
inductive Mode where
  /-- Outside quotes. -/
  | plain
  /-- Between apostrophes. -/
  | single
  /-- Between double quotes. -/
  | double
  /-- After a backslash, which stands between double quotes or not. -/
  | escape (quoted : Bool)
  /-- After a dollar sign. -/
  | dollar (quoted : Bool)
  /-- In a reference, after its opening brace and some characters. -/
  | brace (quoted : Bool) (name : List Char)
  /-- After the first character of an operator. -/
  | operator (first : Char)
  deriving DecidableEq

/-- The mode in which expansions start: between double quotes or not. -/
def Mode.around (quoted : Bool) : Mode := if quoted then .double else .plain

/-- The command that is being read: its tokens so far, and the word not yet ended. -/
structure Frame where
  tokens : List Token
  word : Option (List Piece)
  mode : Mode

/-- The command that is being read, and those it is nested in. -/
structure State where
  frame : Frame
  outer : List Frame

namespace Frame

/-- A command of which nothing is read. -/
def fresh : Frame := ⟨[], none, .plain⟩

/-- The command in another mode. -/
def goTo (f : Frame) (mode : Mode) : Frame := { f with mode := mode }

/-- The command with a word begun, maybe an empty one, in another mode. -/
def enter (f : Frame) (mode : Mode) : Frame :=
  { f with word := some (f.word.getD []), mode := mode }

/-- The command with one more piece in its word. -/
def add (f : Frame) (p : Piece) : Frame :=
  { f with word := some (f.word.getD [] ++ [p]) }

/-- The command with its word ended. -/
def cut (f : Frame) : Frame :=
  { f with tokens := f.tokens ++ (f.word.map Token.word).toList, word := none }

/-- The command with one more operator. -/
def emit (f : Frame) (op : List Char) : Frame :=
  { f with tokens := f.tokens ++ [.operator (String.ofList op)], mode := .plain }

end Frame

namespace State

/-- The state with a change to the command being read. -/
def update (s : State) (f : Frame → Frame) : State := { s with frame := f s.frame }

/-- The state after the opening of a substitution. -/
def push (s : State) (quoted : Bool) : State :=
  ⟨.fresh, s.frame.enter (.around quoted) :: s.outer⟩

/-- The state after the closing parenthesis of a substitution. -/
def pop? (s : State) : Option State :=
  match s.outer with
  | [] => none
  | f :: outer => some ⟨f.add (.output s.frame.cut.tokens (f.mode != .double)), outer⟩

end State

/-- The characters that have a meaning of their own outside quotes. -/
def special : List Char :=
  ['|', '&', ';', '<', '>', '(', ')', '$', '`', '\\', '"', '\'', ' ', '\t', '\n', '*', '?', '[', '#',
    '~', '=', '%', '!', '{', '}']

/-- A character outside quotes. -/
def plainStep (s : State) (c : Char) : Option State :=
  if c ∈ special then
    match c with
    | '\'' => some (s.update (·.enter .single))
    | '"' => some (s.update (·.enter .double))
    | '$' => some (s.update (·.goTo (.dollar false)))
    | '\\' => some (s.update (·.goTo (.escape false)))
    | ' ' => some (s.update .cut)
    | '\t' => some (s.update .cut)
    | '|' => some (s.update fun f => f.cut.goTo (.operator c))
    | '&' => some (s.update fun f => f.cut.goTo (.operator c))
    | ';' => some (s.update fun f => f.cut.goTo (.operator c))
    | ')' => s.pop?
    | _ => none
  else some (s.update (·.add (.char c)))

/-- A character between double quotes. -/
def doubleStep (s : State) (c : Char) : Option State :=
  match c with
  | '"' => some (s.update (·.goTo .plain))
  | '$' => some (s.update (·.goTo (.dollar true)))
  | '\\' => some (s.update (·.goTo (.escape true)))
  | '`' => none
  | c => some (s.update (·.add (.char c)))

/-- A character after a backslash. Outside quotes it stands for itself. Between double quotes only
some characters lose the backslash. A line feed vanishes. -/
def escapeStep (s : State) (quoted : Bool) (c : Char) : Option State :=
  if c = '\n' then some (s.update (·.goTo (.around quoted)))
  else if !quoted then some (s.update fun f => (f.goTo .plain).add (.char c))
  else if ['$', '`', '"', '\\'].contains c then
    some (s.update fun f => (f.goTo .double).add (.char c))
  else some (s.update fun f => ((f.goTo .double).add (.char '\\')).add (.char c))

/-- The characters of a shell name after its first. -/
def isShellChar (c : Char) : Bool :=
  c.isAlphanum || c == '_'

/-- Names of shell variables and functions. -/
def isShellName : List Char → Bool
  | [] => false
  | c :: cs => (c.isAlpha || c == '_') && cs.all isShellChar

/-- What a reference can be to: a variable or an argument by its number. -/
def isParameter (name : List Char) : Bool :=
  isShellName name || (!name.isEmpty && name.all Char.isDigit)

/-- A character in a reference. -/
def braceStep (s : State) (quoted : Bool) (name : List Char) (c : Char) : Option State :=
  if c = '}' then
    if isParameter name then
      some (s.update fun f =>
        (f.goTo (.around quoted)).add (.value (String.ofList name) !quoted))
    else none
  else if isShellChar c then some (s.update (·.goTo (.brace quoted (name ++ [c]))))
  else none

/-- One character. -/
def step (s : State) (c : Char) : Option State :=
  match s.frame.mode with
  | .plain => plainStep s c
  | .single =>
    if c = '\'' then some (s.update (·.goTo .plain)) else some (s.update (·.add (.char c)))
  | .double => doubleStep s c
  | .escape quoted => escapeStep s quoted c
  | .dollar quoted =>
    if c = '{' then some (s.update (·.goTo (.brace quoted [])))
    else if c = '(' then some (s.push quoted)
    else none
  | .brace quoted name => braceStep s quoted name c
  | .operator first =>
    if c = first then some (s.update (·.emit [first, c]))
    else plainStep (s.update (·.emit [first])) c

/-- Characters one after the other. -/
def run (s : State) (cs : List Char) : Option State :=
  cs.foldlM step s

/-- The tokens of a text that ends here: no quote and no substitution may be open. -/
def State.finish? (s : State) : Option (List Token) :=
  match s.outer, s.frame.mode with
  | [], .plain => some s.frame.cut.tokens
  | [], .operator first => some (s.frame.emit [first]).tokens
  | _, _ => none

/-- The tokens of a text. -/
def read (text : String) : Option (List Token) :=
  (run ⟨.fresh, []⟩ text.toList).bind State.finish?

theorem run_nil (s : State) : run s [] = some s := rfl

theorem run_cons (s : State) (c : Char) (cs : List Char) :
    run s (c :: cs) = (step s c).bind fun s' => run s' cs := by
  unfold run
  rw [List.foldlM_cons]
  rfl

theorem run_cons_of_step {s s' : State} {c : Char} (h : step s c = some s') (cs : List Char) :
    run s (c :: cs) = run s' cs := by
  rw [run_cons, h, Option.bind_some]

/-- **Reading goes on where it was left.** -/
theorem run_append_of_run {s s' : State} {cs : List Char} (h : run s cs = some s') (ds : List Char) :
    run s (cs ++ ds) = run s' ds := by
  unfold run at h ⊢
  rw [List.foldlM_append, h]
  rfl

/-- Characters of names have no meaning of their own. -/
theorem not_mem_special {c : Char} (h : isShellChar c = true) : c ∉ special := by
  intro hs
  have hall : special.all (fun c => !isShellChar c) = true := rfl
  have := List.all_eq_true.1 hall c hs
  rw [h] at this
  cases this

variable {ts : List Token} {w : Option (List Piece)} {out : List Frame}

/-- Outside quotes a character without meaning of its own stands for itself. -/
theorem step_ordinary {c : Char} (h : c ∉ special) :
    step ⟨⟨ts, w, .plain⟩, out⟩ c =
      some ⟨⟨ts, some (w.getD [] ++ [.char c]), .plain⟩, out⟩ := by
  simp [step, plainStep, h, State.update, Frame.add]

theorem run_plain : ∀ (cs : List Char) (ps : List Piece), cs.all isShellChar = true →
    run ⟨⟨ts, some ps, .plain⟩, out⟩ cs = some ⟨⟨ts, some (ps ++ cs.map .char), .plain⟩, out⟩ := by
  intro cs
  induction cs with
  | nil => intro ps _; simp [run_nil]
  | cons c cs ih =>
    intro ps h
    simp only [List.all_cons, Bool.and_eq_true] at h
    rw [run_cons_of_step (step_ordinary (not_mem_special h.1)), ih _ h.2]
    simp

theorem isShellChar_of_isShellName {name : List Char} (h : isShellName name = true) :
    name ≠ [] ∧ name.all isShellChar = true := by
  cases name with
  | nil => cases h
  | cons c cs =>
    simp only [isShellName, Bool.and_eq_true] at h
    have hc : isShellChar c = true := by
      have := h.1
      simp only [isShellChar, Char.isAlphanum, Bool.or_eq_true, beq_iff_eq] at this ⊢
      tauto
    exact ⟨List.cons_ne_nil _ _, by simp only [List.all_cons, hc, h.2, Bool.and_self]⟩

/-- Outside quotes the characters of a name stand for themselves. -/
theorem run_name {name : List Char} (h : isShellName name = true) :
    run ⟨⟨ts, w, .plain⟩, out⟩ name =
      some ⟨⟨ts, some (w.getD [] ++ name.map .char), .plain⟩, out⟩ := by
  obtain ⟨hne, hall⟩ := isShellChar_of_isShellName h
  cases name with
  | nil => exact absurd rfl hne
  | cons c cs =>
    simp only [List.all_cons, Bool.and_eq_true] at hall
    rw [run_cons_of_step (step_ordinary (not_mem_special hall.1)), run_plain _ _ hall.2]
    simp

/-- The characters of a text between apostrophes. An apostrophe leaves them, is read between double
quotes, and comes back to them. -/
theorem run_quoted_chars : ∀ (s : List Char) (ps : List Piece),
    run ⟨⟨ts, some ps, .single⟩, out⟩ (s.flatMap (quotedChar '\'')) =
      some ⟨⟨ts, some (ps ++ s.map .char), .single⟩, out⟩ := by
  intro s
  induction s with
  | nil => intro ps; simp [run_nil]
  | cons c s ih =>
    intro ps
    have hc : run ⟨⟨ts, some ps, .single⟩, out⟩ (quotedChar '\'' c) =
        some ⟨⟨ts, some (ps ++ [.char c]), .single⟩, out⟩ := by
      by_cases h : c = '\''
      · subst h; rfl
      · simp [quotedChar, h, run_cons, run_nil, step, State.update, Frame.add]
    rw [List.flatMap_cons, run_append_of_run hc, ih]
    simp

/-- **A text between apostrophes is that text.** -/
theorem run_quoteChars (s : List Char) :
    run ⟨⟨ts, w, .plain⟩, out⟩ (quoteChars '\'' s) =
      some ⟨⟨ts, some (w.getD [] ++ s.map .char), .plain⟩, out⟩ := by
  have ho : step ⟨⟨ts, w, .plain⟩, out⟩ '\'' = some ⟨⟨ts, some (w.getD []), .single⟩, out⟩ := rfl
  unfold quoteChars
  rw [run_cons_of_step ho, run_append_of_run (run_quoted_chars s _)]
  rfl

/-- The characters of a reference up to its closing brace. -/
theorem run_brace {quoted : Bool} : ∀ (cs name : List Char), cs.all isShellChar = true →
    run ⟨⟨ts, w, .brace quoted name⟩, out⟩ cs = some ⟨⟨ts, w, .brace quoted (name ++ cs)⟩, out⟩ := by
  intro cs
  induction cs with
  | nil => intro name _; simp [run_nil]
  | cons c cs ih =>
    intro name h
    simp only [List.all_cons, Bool.and_eq_true] at h
    have hb : c ≠ '}' := by rintro rfl; exact absurd h.1 (by decide)
    have hc : step ⟨⟨ts, w, .brace quoted name⟩, out⟩ c =
        some ⟨⟨ts, w, .brace quoted (name ++ [c])⟩, out⟩ := by
      simp [step, braceStep, hb, h.1, State.update, Frame.goTo]
    rw [run_cons_of_step hc, ih _ h.2]
    simp

theorem isShellChar_of_isParameter {name : List Char} (h : isParameter name = true) :
    name.all isShellChar = true := by
  simp only [isParameter, Bool.or_eq_true, Bool.and_eq_true, List.all_eq_true] at h
  rcases h with h | ⟨-, h⟩
  · exact (isShellChar_of_isShellName h).2
  · exact List.all_eq_true.2 fun c hc => by simp [isShellChar, Char.isAlphanum, h c hc]

/-- **A reference is the value of what it names**, split unless it stands between double quotes. -/
theorem run_reference (quoted : Bool) {name : String} (h : isParameter name.toList = true) :
    run ⟨⟨ts, w, .around quoted⟩, out⟩ (Word.reference name) =
      some ⟨⟨ts, some (w.getD [] ++ [.value name !quoted]), .around quoted⟩, out⟩ := by
  have h1 : step ⟨⟨ts, w, .around quoted⟩, out⟩ '$' = some ⟨⟨ts, w, .dollar quoted⟩, out⟩ := by
    cases quoted <;> rfl
  have h2 : step ⟨⟨ts, w, .dollar quoted⟩, out⟩ '{' = some ⟨⟨ts, w, .brace quoted []⟩, out⟩ := rfl
  have h3 : run ⟨⟨ts, w, .brace quoted name.toList⟩, out⟩ ['}'] =
      some ⟨⟨ts, some (w.getD [] ++ [.value name !quoted]), .around quoted⟩, out⟩ := by
    simp [run_cons, run_nil, step, braceStep, h, State.update, Frame.goTo, Frame.add]
  unfold Word.reference
  rw [run_cons_of_step h1, run_cons_of_step h2,
    run_append_of_run (run_brace _ _ (isShellChar_of_isParameter h))]
  exact h3

/-- **A substitution between double quotes.** What is read inside it, from nothing, becomes one
piece of the word around it. -/
theorem run_substitution {inside : List Char} {ts' : List Token} {ps : List Piece}
    (h : ∀ out', run ⟨.fresh, out'⟩ inside = some ⟨⟨ts', some ps, .plain⟩, out'⟩) :
    run ⟨⟨ts, w, .plain⟩, out⟩ (Word.substitution inside) =
      some ⟨⟨ts, some (w.getD [] ++ [.output (ts' ++ [.word ps]) false]), .plain⟩, out⟩ := by
  have h1 : step ⟨⟨ts, w, .plain⟩, out⟩ '"' = some ⟨⟨ts, some (w.getD []), .double⟩, out⟩ := rfl
  have h2 : step ⟨⟨ts, some (w.getD []), .double⟩, out⟩ '$' =
      some ⟨⟨ts, some (w.getD []), .dollar true⟩, out⟩ := rfl
  have h3 : step ⟨⟨ts, some (w.getD []), .dollar true⟩, out⟩ '(' =
      some ⟨.fresh, ⟨ts, some (w.getD []), .double⟩ :: out⟩ := rfl
  unfold Word.substitution
  rw [run_cons_of_step h1, run_cons_of_step h2, run_cons_of_step h3, run_append_of_run (h _)]
  rfl

end Reader

open Reader

/-- A text as the pieces of a word. -/
def lettersOf (s : String) : List Piece := s.toList.map .char

/-- The call of the default shell on a command, with the message if it fails. -/
def shellCallTokens (command : String) : List Token :=
  [.word (lettersOf "env"), .word [.value "DEFAULT_SHELL" false],
    .word [.value "DEFAULT_SHELL_ARGS" true], .word (lettersOf command), .operator "||",
    .word (lettersOf "backtick_error")]

namespace Word

mutual

/-- What a word is made of. -/
def pieces : Word → List Piece
  | .literal s => lettersOf s
  | .slash => lettersOf "/"
  | .valueOf name => [.value name false]
  | .test name => [.output [.word (lettersOf name)] false]
  | .call name args => [.output (.word (lettersOf name) :: argTokens args) false]
  | .command s => [.output (shellCallTokens s) false]
  | .self => [.value "0" false]
  | .selfHere => lettersOf "./" ++
      [.output [.word (lettersOf "basename"), .word [.value "0" false]] false]
  | .append left right => left.pieces ++ right.pieces

/-- Words as the arguments of a call. -/
def argTokens : List Word → List Token
  | [] => []
  | w :: rest => .word w.pieces :: argTokens rest

end

mutual

/-- All names in a word are shell names. -/
def Safe : Word → Prop
  | .valueOf name => isShellName name.toList = true
  | .test name => isShellName name.toList = true
  | .call name args => isShellName name.toList = true ∧ AllSafe args
  | .append left right => left.Safe ∧ right.Safe
  | _ => True

/-- All names in words are shell names. -/
def AllSafe : List Word → Prop
  | [] => True
  | w :: rest => w.Safe ∧ AllSafe rest

end

end Word

namespace Reader

variable {ts : List Token} {w : Option (List Piece)} {out : List Frame}

theorem quoteChars_of_not_mem {q : Char} {s : List Char} (h : q ∉ s) :
    quoteChars q s = q :: (s ++ [q]) := by
  have hs : s.flatMap (quotedChar q) = s := by
    induction s with
    | nil => rfl
    | cons c s ih =>
      have hc : c ≠ q := fun hc => h (by simp [hc])
      rw [List.flatMap_cons, ih fun hq => h (List.mem_cons_of_mem _ hq)]
      simp [quotedChar, hc]
  rw [quoteChars, hs]

theorem doubleQuote_not_mem {name : List Char} (h : isShellName name = true) : '"' ∉ name := by
  intro hq
  have := List.all_eq_true.1 (isShellChar_of_isShellName h).2 _ hq
  cases this

/-- A variable between double quotes. -/
theorem run_valueOf {name : String} (h : isShellName name.toList = true) :
    run ⟨⟨ts, w, .plain⟩, out⟩ (Word.chars (.valueOf name)) =
      some ⟨⟨ts, some (w.getD [] ++ [.value name false]), .plain⟩, out⟩ := by
  have hq : '"' ∉ Word.reference name := by
    have := doubleQuote_not_mem h
    simp [Word.reference, this]
  have h1 : step ⟨⟨ts, w, .plain⟩, out⟩ '"' =
      some ⟨⟨ts, some (w.getD []), .around true⟩, out⟩ := rfl
  have hp : isParameter name.toList = true := by simp [isParameter, h]
  rw [Word.chars, quoteChars_of_not_mem hq, run_cons_of_step h1,
    run_append_of_run (run_reference true hp)]
  rfl

/-- The call of the default shell, inside its substitution. -/
theorem run_shellCall (command : String) :
    run ⟨.fresh, out⟩ (Word.shellCall (quoteChars '\'' command.toList)) =
      some ⟨⟨(shellCallTokens command).dropLast, some (lettersOf "backtick_error"), .plain⟩, out⟩ := by
  have h1 : run ⟨.fresh, out⟩ "env \"${DEFAULT_SHELL}\" ${DEFAULT_SHELL_ARGS} ".toList =
      some ⟨⟨(shellCallTokens command).take 3, none, .plain⟩, out⟩ := rfl
  unfold Word.shellCall
  rw [List.append_assoc, run_append_of_run h1, run_append_of_run (run_quoteChars _)]
  rfl

mutual

/-- **The text of a word adds its pieces to the word being read**, at any depth of nesting. -/
theorem run_word : ∀ (wd : Word), wd.Safe → ∀ (ts : List Token) (w : Option (List Piece))
    (out : List Frame), run ⟨⟨ts, w, .plain⟩, out⟩ wd.chars =
      some ⟨⟨ts, some (w.getD [] ++ wd.pieces), .plain⟩, out⟩
  | .literal s, _ => fun ts w out => by
    rw [Word.chars, Word.pieces]; exact run_quoteChars s.toList
  | .slash, _ => fun ts w out => rfl
  | .valueOf name, h => fun ts w out => by
    rw [Word.Safe] at h
    rw [Word.pieces]; exact run_valueOf h
  | .test name, h => fun ts w out => by
    rw [Word.Safe] at h
    -- no character of a shell name needs quoting, so the text is a plain substitution
    have hq : '"' ∉ '$' :: '(' :: (name.toList ++ [')']) := by
      have := doubleQuote_not_mem h
      simp [this]
    have hs : Word.chars (.test name) = Word.substitution name.toList := by
      rw [Word.chars, quoteChars_of_not_mem hq]
      simp [Word.substitution]
    have hin : ∀ out', run ⟨.fresh, out'⟩ name.toList =
        some ⟨⟨[], some (lettersOf name), .plain⟩, out'⟩ := fun out' => run_name h
    rw [hs, Word.pieces]
    exact run_substitution hin
  | .call name args, h => fun ts w out => by
    rw [Word.Safe] at h
    obtain ⟨ts', ps, hrun, htok⟩ := run_args args h.2 [] (lettersOf name)
    rw [Word.chars, Word.pieces]
    -- a substitution is read from nothing, whatever it is nested in
    have hin : ∀ out', run ⟨.fresh, out'⟩ (name.toList ++ Word.argChars args) =
        some ⟨⟨ts', some ps, .plain⟩, out'⟩ := fun out' => by
      rw [Frame.fresh, run_append_of_run (run_name h.1)]
      exact hrun out'
    rw [run_substitution hin, htok]
    rfl
  | .command s, _ => fun ts w out => by
    rw [Word.chars, Word.pieces, run_substitution fun out' => run_shellCall s]
    rfl
  | .self, _ => fun ts w out => rfl
  | .selfHere, _ => fun ts w out => by
    have h : run ⟨⟨ts, w, .plain⟩, out⟩ Word.selfHereChars =
        some ⟨⟨ts, some (w.getD [] ++ [.char '.'] ++ [.char '/'] ++
          [.output [.word (lettersOf "basename"), .word [.value "0" false]] false]), .plain⟩,
          out⟩ := rfl
    rw [Word.chars, Word.pieces, h]
    simp [lettersOf]
  | .append left right, h => fun ts w out => by
    rw [Word.Safe] at h
    rw [Word.chars, Word.pieces, run_append_of_run (run_word left h.1 ts w out),
      run_word right h.2]
    simp

/-- **Each argument of a call is one word**, in order. -/
theorem run_args : ∀ (args : List Word), Word.AllSafe args → ∀ (ts : List Token) (ps : List Piece),
    ∃ ts' ps', (∀ out, run ⟨⟨ts, some ps, .plain⟩, out⟩ (Word.argChars args) =
        some ⟨⟨ts', some ps', .plain⟩, out⟩) ∧
      ts' ++ [.word ps'] = ts ++ .word ps :: Word.argTokens args
  | [], _ => fun ts ps => ⟨ts, ps, fun out => rfl, by rw [Word.argTokens]⟩
  | wd :: rest, h => fun ts ps => by
    rw [Word.AllSafe] at h
    obtain ⟨ts', ps', hrun, htok⟩ := run_args rest h.2 (ts ++ [.word ps]) wd.pieces
    refine ⟨ts', ps', fun out => ?_, ?_⟩
    -- the blank ends the word before, and the argument is the next one
    · have h1 : step ⟨⟨ts, some ps, .plain⟩, out⟩ ' ' =
          some ⟨⟨ts ++ [.word ps], none, .plain⟩, out⟩ := rfl
      rw [Word.argChars, run_cons_of_step h1, run_append_of_run (run_word wd h.1 _ _ _)]
      exact hrun out
    · rw [htok, Word.argTokens]
      simp

end

/-- **The text of a word is one word with its pieces.** -/
theorem read_word {wd : Word} (h : wd.Safe) : read wd.text = some [.word wd.pieces] := by
  unfold read Word.text
  rw [String.toList_ofList, Frame.fresh, run_word wd h]
  rfl

end Reader

end Justfile.Shell
