import Justfile.Proofs.Checks
import Justfile.Proofs.Layout
import Justfile.Proofs.Repeatable
import Justfile.Proofs.Unquoting

/-!
# Interpolated values

The value of an interpolated expression is kept in a numbered variable, and the line that it stands in reads that
variable. One computation gives the numbers to the assignments, another one gives them to the words that read them, and
lines that are left out have no numbers.

* `Reader.Piece.filled`: a word with values put in for its variables.
* `run_joinText`: words that stand one after the other are read as one.
* `filledText`: the text of a line whose interpolations have some values.
* `Executed`: what a line runs. A call of `just` becomes one of the script, unless a shell is set and not empty.
* `assignment?`: the variable that a row of a script assigns something to, and what comes after the equals sign.
* `BodyRows`: the rows of a body, line by line: values are assigned, and then the line is run.
* `interpolated_commands`: these are the rows in the script of every justfile.
-/

namespace Justfile

open Shell Shell.Names Shell.Reader

namespace Shell

namespace Reader

/-- A piece of a word with the value of a variable put in. What a command puts out is left as it is. -/
def Piece.filled (env : String → String) : Piece → List Piece
  | .value name false => lettersOf (env name)
  | piece => [piece]

/-- A word with values put in for its variables. -/
def filled (env : String → String) (pieces : List Piece) : List Piece :=
  pieces.flatMap (Piece.filled env)

variable {env : String → String}

theorem filled_append (ps qs : List Piece) : filled env (ps ++ qs) = filled env ps ++ filled env qs :=
  List.flatMap_append

theorem lettersOf_append (s t : String) : lettersOf (s ++ t) = lettersOf s ++ lettersOf t := by
  unfold lettersOf
  rw [String.toList_append, List.map_append]

theorem filled_lettersOf (s : String) : filled env (lettersOf s) = lettersOf s := by
  unfold filled lettersOf
  rw [List.flatMap_map, List.map_eq_flatMap]
  rfl

theorem filled_value (name : String) : filled env [.value name false] = lettersOf (env name) :=
  List.flatMap_singleton _ _

/-- The text of words adds their pieces to a word that is begun. -/
theorem run_words {ts : List Token} {out : List Frame} {ws : List Word} (h : ∀ w ∈ ws, w.Safe) (ps : List Piece) :
    run ⟨⟨ts, some ps, .plain⟩, out⟩ (ws.flatMap Word.chars) =
      some ⟨⟨ts, some (ps ++ ws.flatMap Word.pieces), .plain⟩, out⟩ := by
  induction ws generalizing ps with
  | nil =>
    rw [List.flatMap_nil, List.flatMap_nil, List.append_nil]
    exact run_nil _
  | cons w ws ih =>
    rw [List.forall_mem_cons] at h
    rw [List.flatMap_cons, run_append_of_run (run_word w h.1 _ _ _), ih h.2, List.flatMap_cons, List.append_assoc]
    rfl

variable {ws : List Word}

theorem toList_joinText (ws : List Word) : (joinText ws).toList = ws.flatMap Word.chars := by
  rw [joinText, String.toList_join, List.flatMap_map]
  simp only [Word.text, String.toList_ofList]

/-- **Words one after the other are one word with their pieces.** -/
theorem run_joinText (hne : ws ≠ []) (h : ∀ w ∈ ws, w.Safe) :
    run ⟨.fresh, []⟩ (joinText ws).toList = some (inWord (ws.flatMap Word.pieces) .plain) := by
  obtain ⟨w, ws, rfl⟩ := List.exists_cons_of_ne_nil hne
  rw [List.forall_mem_cons] at h
  rw [toList_joinText, List.flatMap_cons, Frame.fresh, run_append_of_run (run_word w h.1 _ _ _), run_words h.2]
  rfl

theorem read_joinText (hne : ws ≠ []) (h : ∀ w ∈ ws, w.Safe) :
    read (joinText ws) = some [.word (ws.flatMap Word.pieces)] := by
  unfold read
  rw [run_joinText hne h]
  rfl

/-- Words one after the other are the first word of a text that goes on with a blank. -/
theorem wordAt_joinText (hne : ws ≠ []) (h : ∀ w ∈ ws, w.Safe) (rest : String) :
    wordAt (joinText ws ++ " " ++ rest) = some (ws.flatMap Word.pieces) := by
  obtain ⟨w, more, hws⟩ := List.exists_cons_of_ne_nil hne
  obtain ⟨q, cs, hchars, hq⟩ := chars_eq_cons w
  have hquote : (joinText ws).toList = q :: (cs ++ more.flatMap Word.chars) := by
    rw [toList_joinText, hws, List.flatMap_cons, hchars, List.cons_append]
  have hblank : (" " ++ rest).toList = ' ' :: rest.toList := by
    rw [String.toList_append]
    rfl
  rw [String.append_assoc]
  exact wordAt_of_run hquote hq (run_joinText hne h) hblank (by decide)

theorem wordAt_word {w : Word} (h : w.Safe) (rest : String) : wordAt (w.text ++ " " ++ rest) = some w.pieces := by
  have hone := wordAt_joinText (List.cons_ne_nil w []) (List.forall_mem_singleton.2 h) rest
  have htext : joinText [w] = w.text := by
    apply String.toList_injective
    rw [toList_joinText, List.flatMap_singleton, Word.text, String.toList_ofList]
  rwa [htext, List.flatMap_singleton] at hone

end Reader

/-- The word of a named expression is safe. -/
theorem IsWord.safe {u : Names} {e : Expr} {w : Word} (h : IsWord u e w) (he : e.Named) : w.Safe := by
  obtain ⟨w', hw', hsafe, -⟩ := wordOf_named (fun n hn => isShellName_shellName u hn) e he
  rw [h.word] at hw'
  cases hw'
  exact hsafe

end Shell

namespace Script

/-- The text of a line whose interpolations have some values, in order. -/
def filledText : List Fragment → List String → String
  | .text s :: rest, values => s ++ filledText rest values
  | .interpolation _ :: rest, value :: values => value ++ filledText rest values
  | _, _ => ""

theorem isShellName_interpolationName (i : Nat) : isShellName (interpolationName i).toList = true := by
  unfold interpolationName
  rw [String.toList_append]
  exact isShellName_append rfl (isShellChar_toString i)

section Words

variable (env : String → String)

/-- The values of the interpolations with the numbers from `first` on. -/
def valuesFrom (first count : Nat) : List String :=
  (List.range' first count).map fun i => env (interpolationName i)

theorem valuesFrom_succ (first count : Nat) :
    valuesFrom env first (count + 1) = env (interpolationName first) :: valuesFrom env (first + 1) count := by
  unfold valuesFrom
  rw [List.range'_succ, List.map_cons]

theorem safe_pieceWords (parts : List Fragment) (first : Nat) : ∀ w ∈ pieceWords first parts, w.Safe := by
  induction parts generalizing first with
  | nil => exact fun w hw => absurd hw List.not_mem_nil
  | cons part parts ih =>
    cases part with
    | text s =>
      rw [pieceWords, List.forall_mem_cons]
      exact ⟨by simp only [Word.Safe], ih first⟩
    | interpolation e =>
      rw [pieceWords, List.forall_mem_cons]
      exact ⟨by rw [Word.Safe]; exact isShellName_interpolationName first, ih (first + 1)⟩

/-- **The words of a line say its text**, whatever the values of the interpolations are. -/
theorem filled_pieceWords (parts : List Fragment) (first : Nat) :
    filled env ((pieceWords first parts).flatMap Word.pieces) =
      lettersOf (filledText parts (valuesFrom env first (interpolationsOf parts).length)) := by
  induction parts generalizing first with
  | nil => rfl
  | cons part parts ih =>
    cases part with
    | text s =>
      rw [pieceWords, List.flatMap_cons, filled_append, ih, Word.pieces, filled_lettersOf, filledText,
        lettersOf_append]
      rfl
    | interpolation e =>
      have hcount : (interpolationsOf (.interpolation e :: parts)).length =
          (interpolationsOf parts).length + 1 := rfl
      rw [pieceWords, List.flatMap_cons, filled_append, ih, Word.pieces, filled_value, hcount, valuesFrom_succ,
        filledText, lettersOf_append]

/-- Whether a line begins with a call of `just`. -/
def callsJust : List Fragment → Bool
  | .text s :: _ => s.startsWith "just "
  | _ => false

/-- The word by which a recipe calls the script itself. -/
def invocation (attributes : List String) : Word :=
  if attributes.contains "no-cd" then .self else .selfHere

/-- The justfile sets a shell: the list for it is not empty. -/
def SetsShell (items : List Item) : Prop :=
  ∃ shell args, ("shell", .words (shell :: args)) ∈ settingsIn items

/-- **What a line runs** when its interpolations have some values: its text, where a call of `just` at the start becomes
a call of the script if the justfile sets no shell. -/
structure Executed (items : List Item) (attributes : List String) (parts : List Fragment) (values : List String)
    (pieces : List Piece) : Prop where
  kept : SetsShell items ∨ callsJust parts = false → filled env pieces = lettersOf (filledText parts values)
  replaced : ¬ SetsShell items → callsJust parts = true → filled env pieces =
    filled env (invocation attributes).pieces ++ lettersOf (String.ofList ((filledText parts values).toList.drop 4))

theorem safe_invocation (attributes : List String) : (invocation attributes).Safe := by
  unfold invocation
  split <;> simp only [Word.Safe]

/-- A line that calls `just`, and any other. -/
theorem commandWords_eq (p : Program) (attributes : List String) (first : Nat) (parts : List Fragment) :
    (∃ s rest, parts = .text s :: rest ∧ s.startsWith "just " = true ∧ p.settings.isGiven "shell" = false ∧
      commandWords (selfWord p attributes) first parts =
        invocation attributes :: pieceWords first (.text (String.ofList (s.toList.drop 4)) :: rest)) ∨
    ((p.settings.isGiven "shell" = true ∨ callsJust parts = false) ∧
      commandWords (selfWord p attributes) first parts = pieceWords first parts) := by
  by_cases hshell : p.settings.isGiven "shell" = true
  · refine .inr ⟨.inl hshell, ?_⟩
    rw [selfWord, if_pos hshell, commandWords]
    exact fun _ _ _ h => by cases h
  · have hself : selfWord p attributes = some (invocation attributes) := by
      rw [selfWord, if_neg hshell, invocation]
      split <;> rfl
    rw [hself, Bool.eq_false_iff.2 hshell]
    cases parts with
    | nil => exact .inr ⟨.inr rfl, rfl⟩
    | cons part rest =>
      cases part with
      | interpolation e => exact .inr ⟨.inr rfl, rfl⟩
      | text s =>
        by_cases hjust : s.startsWith "just " = true
        · exact .inl ⟨s, rest, rfl, hjust, rfl, by rw [commandWords, if_pos hjust]⟩
        · exact .inr ⟨.inr (Bool.eq_false_iff.2 hjust), by rw [commandWords, if_neg hjust]⟩

theorem commandWords_safe (p : Program) (attributes : List String) (first : Nat) (parts : List Fragment) :
    ∀ w ∈ commandWords (selfWord p attributes) first parts, w.Safe := by
  rcases commandWords_eq p attributes first parts with ⟨s, rest, -, -, -, heq⟩ | ⟨-, heq⟩
  · rw [heq, List.forall_mem_cons]
    exact ⟨safe_invocation attributes, safe_pieceWords _ first⟩
  · rw [heq]
    exact safe_pieceWords parts first

theorem commandWords_ne_nil (p : Program) (attributes : List String) (first : Nat) {parts : List Fragment}
    (h : parts ≠ []) : commandWords (selfWord p attributes) first parts ≠ [] := by
  rcases commandWords_eq p attributes first parts with ⟨s, rest, -, -, -, heq⟩ | ⟨-, heq⟩
  · rw [heq]
    exact List.cons_ne_nil _ _
  · rw [heq]
    obtain ⟨part, rest, rfl⟩ := List.exists_cons_of_ne_nil h
    cases part with
    | text s => exact List.cons_ne_nil _ _
    | interpolation e => exact List.cons_ne_nil _ _

/-- **The command of a line says what the line runs.** -/
theorem executed_commandWords {p : Program} {items : List Item}
    (hshell : p.settings.isGiven "shell" = true ↔ SetsShell items) (attributes : List String) (first : Nat)
    (parts : List Fragment) : Executed env items attributes parts
      (valuesFrom env first (interpolationsOf parts).length)
      ((commandWords (selfWord p attributes) first parts).flatMap Word.pieces) := by
  rcases commandWords_eq p attributes first parts with ⟨s, rest, rfl, hjust, hnone, heq⟩ | ⟨hkept, heq⟩
  · -- the four letters that are dropped stand in the first text, so the rest of the line stays as it is
    obtain ⟨tail, htail⟩ := String.startsWith_string_iff.1 hjust
    have hdrop : ∀ more : String, String.ofList ((s ++ more).toList.drop 4) =
        String.ofList (s.toList.drop 4) ++ more := by
      intro more
      apply String.toList_injective
      rw [String.toList_ofList, String.toList_append, String.toList_append, String.toList_ofList, ← htail]
      rfl
    refine ⟨fun hor => ?_, fun _ _ => ?_⟩
    · rcases hor with hset | hcalls
      · rw [← hshell, hnone] at hset
        cases hset
      · rw [callsJust, hjust] at hcalls
        cases hcalls
    · rw [heq, List.flatMap_cons, filled_append, filled_pieceWords, filledText, filledText, hdrop]
      rfl
  · rw [heq]
    refine ⟨fun _ => filled_pieceWords env parts first, fun hset hcalls => ?_⟩
    rw [hshell, hcalls] at hkept
    rcases hkept with hkept | hkept
    · exact absurd hkept hset
    · cases hkept

end Words

section Rows

/-- The variable that a row of a script assigns something to, which is the name before an equals sign that the row
begins with, and what comes after the equals sign. -/
def assignment? (row : String) : Option (String × String) :=
  let cs := row.toList.dropWhile (· == ' ')
  if cs.takeWhile isShellChar ≠ [] ∧ (cs.dropWhile isShellChar).head? = some '=' then
    some (String.ofList (cs.takeWhile isShellChar), String.ofList (cs.dropWhile isShellChar).tail)
  else none

theorem assignment?_eq {row : String} {name rest : List Char} (hrow : row.toList.dropWhile (· == ' ') = name ++ rest)
    (hname : ∀ c ∈ name, isShellChar c = true) (hrest : Parsing.Avoids isShellChar rest) :
    assignment? row = if name ≠ [] ∧ rest.head? = some '=' then some (String.ofList name, String.ofList rest.tail)
      else none := by
  unfold assignment?
  simp only [hrow, List.takeWhile_append_of_pos hname, List.dropWhile_append_of_pos hname, hrest.takeWhile,
    hrest.dropWhile, List.append_nil]

/-- A text that does not begin with a name. -/
def Nameless (cs : List Char) : Prop :=
  Parsing.Avoids isShellChar (cs.dropWhile (· == ' '))

theorem Nameless.assignment? {row : String} (h : Nameless row.toList) : assignment? row = none := by
  rw [assignment?_eq (List.nil_append _).symm (fun c hc => absurd hc List.not_mem_nil) h]
  exact if_neg fun hname => hname.1 rfl

theorem nameless_cons {c : Char} (hblank : (c == ' ') = false) (hchar : isShellChar c = false) (cs : List Char) :
    Nameless (c :: cs) := by
  unfold Nameless
  rw [List.dropWhile_cons_of_neg (by rw [hblank]; decide)]
  exact Parsing.avoids_cons hchar cs

theorem Nameless.append {cs ds : List Char} (hcs : Nameless cs) (hds : Nameless ds) : Nameless (cs ++ ds) := by
  unfold Nameless at *
  rw [List.dropWhile_append]
  cases hdrop : cs.dropWhile (· == ' ') with
  | nil => exact hds
  | cons c more =>
    rw [hdrop] at hcs
    exact Parsing.avoids_cons (hcs c rfl) _

theorem nameless_intercalate {css : List (List Char)} (h : ∀ cs ∈ css, Nameless cs) :
    Nameless ([' '].intercalate css) := by
  induction css with
  | nil => exact Parsing.avoids_nil _
  | cons cs css ih =>
    rw [List.forall_mem_cons] at h
    cases css with
    | nil =>
      rw [List.intercalate_singleton]
      exact h.1
    | cons ds css =>
      rw [List.intercalate_cons_cons]
      have hblank : Nameless [' '] := Parsing.avoids_nil _
      exact (h.1.append hblank).append (ih h.2)

theorem nameless_flatten {css : List (List Char)} (h : ∀ cs ∈ css, Nameless cs) : Nameless css.flatten := by
  induction css with
  | nil => exact Parsing.avoids_nil _
  | cons cs css ih =>
    rw [List.forall_mem_cons] at h
    exact h.1.append (ih h.2)

theorem nameless_joinText (ws : List Word) : Nameless (joinText ws).toList := by
  rw [toList_joinText]
  refine nameless_flatten fun cs hcs => ?_
  obtain ⟨w, -, rfl⟩ := List.mem_map.1 hcs
  -- a word begins with a quote
  obtain ⟨q, more, hchars, rfl | rfl⟩ := chars_eq_cons w
  · rw [hchars]
    exact nameless_cons rfl rfl _
  · rw [hchars]
    exact nameless_cons rfl rfl _

/-- Every argument that is passed on stands between quotes. -/
theorem nameless_arguments (a : Arguments) : Nameless a.text.toList := by
  have hquoted : ∀ s ∈ (a.recipe.map fun r => "'" ++ r ++ "'").toList ++ a.values.map valueText ++
      (if a.remaining then ["\"${@}\""] else []), Nameless s.toList := by
    intro s hs
    rw [List.mem_append, List.mem_append] at hs
    rcases hs with (hs | hs) | hs
    · obtain ⟨r, -, rfl⟩ := Option.map_eq_some_iff.1 (Option.mem_toList.1 hs)
      rw [String.toList_append, String.toList_append]
      exact nameless_cons rfl rfl _
    · obtain ⟨v, -, rfl⟩ := List.mem_map.1 hs
      rw [valueText, String.toList_append, String.toList_append]
      exact nameless_cons rfl rfl _
    · split at hs
      · rw [List.mem_singleton.1 hs]
        exact nameless_cons rfl rfl _
      · cases hs
  unfold Arguments.text
  rw [String.toList_intercalate]
  refine nameless_intercalate fun cs hcs => ?_
  obtain ⟨s, hs, rfl⟩ := List.mem_map.1 hcs
  exact hquoted s hs

/-- A row that begins with a name assigns something if an equals sign follows. -/
theorem assignment?_of_name {row : String} {name more : List Char} {c : Char}
    (hrow : row.toList = ' ' :: ' ' :: (name ++ c :: more)) (hname : isShellName name = true)
    (hc : isShellChar c = false) :
    assignment? row = if c = '=' then some (String.ofList name, String.ofList more) else none := by
  obtain ⟨hne, hall⟩ := isShellChar_of_isShellName hname
  have hchars : ∀ d ∈ name, isShellChar d = true := List.all_eq_true.1 hall
  have hstart : row.toList.dropWhile (· == ' ') = name ++ c :: more := by
    obtain ⟨d, ds, rfl⟩ := List.exists_cons_of_ne_nil hne
    have hd : d ≠ ' ' := by
      rintro rfl
      exact absurd (hchars ' ' List.mem_cons_self) (by decide)
    rw [hrow, List.dropWhile_cons_of_pos rfl, List.dropWhile_cons_of_pos rfl, List.cons_append]
    exact (Parsing.avoids_of_ne hd _).dropWhile
  rw [assignment?_eq hstart hchars (Parsing.avoids_cons hc _), List.tail_cons]
  by_cases heq : c = '='
  · rw [if_pos ⟨hne, congrArg some heq⟩, if_pos heq]
  · rw [if_neg fun h => heq (Option.some.inj h.2), if_neg heq]

/-- A row that begins with a command assigns nothing. -/
theorem assignment?_of_command (name : String) (hname : isShellName name.toList = true) (more : String) :
    assignment? ("  " ++ name ++ " " ++ more) = none := by
  have hrow : ("  " ++ name ++ " " ++ more).toList = ' ' :: ' ' :: (name.toList ++ ' ' :: more.toList) := by
    rw [String.append_assoc, String.append_assoc, String.toList_append, String.toList_append, String.toList_append]
    rfl
  exact assignment?_of_name hrow hname rfl

/-- The row of an interpolated value assigns it to its variable. -/
theorem assignment?_interpolation (recipe : String) (i : Interpolation) :
    assignment? (i.text recipe) = some (interpolationName i.index,
      i.value.text ++ " " ++ ("|| recipe_error '" ++ recipe ++ "' \"${LINENO:-}\"")) := by
  set after := i.value.text ++ " " ++ ("|| recipe_error '" ++ recipe ++ "' \"${LINENO:-}\"") with hafter
  have hmerge := append_merge (show " " ++ "|| recipe_error '" = " || recipe_error '" from rfl)
  have hrow : (i.text recipe).toList = ' ' :: ' ' :: ((interpolationName i.index).toList ++ '=' :: after.toList) := by
    have htext : i.text recipe = "  " ++ (interpolationName i.index ++ ("=" ++ after)) := by
      unfold Interpolation.text
      rw [hafter]
      simp only [String.append_assoc, hmerge]
    rw [htext, String.toList_append, String.toList_append, String.toList_append]
    rfl
  rw [assignment?_of_name hrow (isShellName_interpolationName i.index) rfl, String.ofList_toList, String.ofList_toList]
  rfl

/-- **The rows of a command.** Its values are assigned first. Then the default shell is run, with the command as the
first word after its arguments. -/
theorem CommandLine.texts_eq (recipe : String) (c : CommandLine) : ∃ shown call after,
    c.texts recipe = c.interpolations.map (Interpolation.text recipe) ++ (shown ++
      ("  env " ++ exportText c.exports ++ "\"${DEFAULT_SHELL}\" ${DEFAULT_SHELL_ARGS} \\") ::
      ("    " ++ (joinText c.command ++ " " ++ call)) :: after) ∧
    ∀ row ∈ shown ++ ("  env " ++ exportText c.exports ++ "\"${DEFAULT_SHELL}\" ${DEFAULT_SHELL_ARGS} \\") ::
      ("    " ++ (joinText c.command ++ " " ++ call)) :: after, assignment? row = none := by
  have hcall (call : String) (h : Nameless call.toList) :
      assignment? ("    " ++ (joinText c.command ++ " " ++ call)) = none := by
    have hblanks : Nameless "    ".toList := Parsing.avoids_nil _
    have hblank : Nameless " ".toList := Parsing.avoids_nil _
    refine Nameless.assignment? ?_
    rw [String.toList_append, String.toList_append, String.toList_append]
    exact hblanks.append (((nameless_joinText _).append hblank).append h)
  have hended : Nameless (c.arguments.text ++ " \\").toList := by
    rw [String.toList_append]
    exact (nameless_arguments _).append (Parsing.avoids_cons rfl _)
  have henv : assignment? ("  env " ++ exportText c.exports ++ "\"${DEFAULT_SHELL}\" ${DEFAULT_SHELL_ARGS} \\") =
      none := by
    rw [String.append_assoc]
    exact assignment?_of_command "env" (by decide) _
  have hshown : ∀ row ∈ (if c.echoed then ["  echo_recipe_line " ++ joinText c.command] else []),
      assignment? row = none := by
    intro row hrow
    split at hrow
    · rw [List.mem_singleton.1 hrow]
      exact assignment?_of_command "echo_recipe_line" (by decide) _
    · cases hrow
  have hreport : assignment? ("    || recipe_error \"" ++ recipe ++ "\" \"${LINENO:-}\"") = none := by
    refine Nameless.assignment? ?_
    rw [String.toList_append, String.toList_append]
    exact Parsing.avoids_cons rfl _
  refine ⟨if c.echoed then ["  echo_recipe_line " ++ joinText c.command] else [], ?_⟩
  simp only [List.forall_mem_append, List.forall_mem_cons]
  unfold CommandLine.texts
  cases c.ending with
  | ignored =>
    refine ⟨c.arguments.text ++ " \\", ["    || true"], ?_, hshown, henv, hcall _ hended, ?_⟩
    · simp [String.append_assoc]
    · exact List.forall_mem_singleton.2 (Nameless.assignment? (Parsing.avoids_cons rfl _))
  | silent =>
    refine ⟨c.arguments.text, [], ?_, hshown, henv, hcall _ (nameless_arguments _), ?_⟩
    · simp [String.append_assoc]
    · exact fun row hrow => absurd hrow List.not_mem_nil
  | reported =>
    refine ⟨c.arguments.text ++ " \\", ["    || recipe_error \"" ++ recipe ++ "\" \"${LINENO:-}\""], ?_, hshown, henv,
      hcall _ hended, List.forall_mem_singleton.2 hreport⟩
    simp [String.append_assoc]

end Rows

/-- The row assigns the value of the expression to the variable with this number: after the equals sign comes the text
of its word, which the shell reads as a word with the pieces of the value. -/
def Assigns (u : Names) (x : Expr × Nat) (row : String) : Prop :=
  ∃ w after, (evaluate x.1).result u = .ok w ∧
    assignment? row = some (interpolationName x.2, w.text ++ " " ++ after) ∧
    wordAt (w.text ++ " " ++ after) = some w.pieces

/-- The rows run a line whose interpolations have the numbers from `first` on, and assign nothing. The default shell
gets one word for the line, and this is what the line runs, whatever the values of the variables are. -/
structure RunsLine (items : List Item) (attributes : List String) (first : Nat) (parts : List Fragment)
    (rows : List String) : Prop where
  assigns : ∀ row ∈ rows, assignment? row = none
  runs : ∃ shown exports call after pieces, rows = shown ++
    ("  env " ++ exports ++ "\"${DEFAULT_SHELL}\" ${DEFAULT_SHELL_ARGS} \\") :: ("    " ++ call) :: after ∧
    wordAt call = some pieces ∧ ∀ env, Executed env items attributes parts
      (valuesFrom env first (interpolationsOf parts).length) pieces

/-- **The rows of a body**, line by line, where interpolations have the numbers from `first` on. For each line its
values are assigned, one after the other, and then it is run. -/
inductive BodyRows (u : Names) (items : List Item) (attributes : List String) :
    Nat → List Line → List String → Prop where
  | nil (first : Nat) : BodyRows u items attributes first [] []
  | cons {first : Nat} {l : Line} {ls : List Line} {assigning running more : List String}
      (hassigning : List.Forall₂ (Assigns u) ((interpolationsOf l.parts).zipIdx first) assigning)
      (hrunning : RunsLine items attributes first l.parts running)
      (hmore : BodyRows u items attributes (first + (interpolationsOf l.parts).length) ls more) :
      BodyRows u items attributes first (l :: ls) (assigning ++ running ++ more)

theorem BodyRows.inv {u : Names} {items : List Item} {attributes : List String} {first : Nat} {l : Line}
    {ls : List Line} {rows : List String} (h : BodyRows u items attributes first (l :: ls) rows) : ∃ assigning running more,
      rows = assigning ++ running ++ more ∧
      List.Forall₂ (Assigns u) ((interpolationsOf l.parts).zipIdx first) assigning ∧
      RunsLine items attributes first l.parts running ∧
      BodyRows u items attributes (first + (interpolationsOf l.parts).length) ls more := by
  cases h with
  | cons hassigning hrunning hmore => exact ⟨_, _, _, rfl, hassigning, hrunning, hmore⟩

/-- The lines of a body that are not left out. -/
def keptLines (p : Program) (ls : List Line) : List Line :=
  ls.filter fun l => !isIgnored p l

/-- The expressions that lines interpolate. -/
def interpolationsIn (ls : List Line) : List Expr :=
  ls.flatMap fun l => interpolationsOf l.parts

/-- The variables that rows assign something to, in order. -/
def assignedNames (rows : List String) : List String :=
  rows.filterMap fun row => (assignment? row).map (·.1)

theorem assignedNames_append (rows more : List String) :
    assignedNames (rows ++ more) = assignedNames rows ++ assignedNames more :=
  List.filterMap_append

section Numbers

variable {u : Names} {items : List Item} {attributes : List String}

theorem assignedNames_of_assigns {es : List Expr} {first : Nat} {rows : List String}
    (h : List.Forall₂ (Assigns u) (es.zipIdx first) rows) :
    assignedNames rows = (List.range' first es.length).map interpolationName := by
  induction es generalizing first rows with
  | nil =>
    rw [List.zipIdx_nil, List.forall₂_nil_left_iff] at h
    rw [h]
    rfl
  | cons e es ih =>
    rw [List.zipIdx_cons] at h
    obtain ⟨row, more, ⟨w, after, -, hrow, -⟩, hmore, rfl⟩ := List.forall₂_cons_left_iff.1 h
    have hcons : assignedNames (row :: more) = interpolationName first :: assignedNames more :=
      List.filterMap_cons_some (by rw [hrow]; rfl)
    rw [hcons, ih hmore, List.length_cons, List.range'_succ, List.map_cons]

/-- **Every number is assigned once, in order.** -/
theorem BodyRows.assignedNames {first : Nat} {ls : List Line} {rows : List String}
    (h : BodyRows u items attributes first ls rows) :
    assignedNames rows = (List.range' first (interpolationsIn ls).length).map interpolationName := by
  induction h with
  | nil first => rfl
  | @cons first l ls assigning running more hassigning hrunning _ ih =>
    have hnone : Script.assignedNames running = [] :=
      List.filterMap_eq_nil_iff.2 fun row hrow => by rw [hrunning.assigns row hrow]; rfl
    have hcount : (interpolationsIn (l :: ls)).length =
        (interpolationsOf l.parts).length + (interpolationsIn ls).length := List.length_append
    rw [assignedNames_append, assignedNames_append, assignedNames_of_assigns hassigning, hnone, ih, List.append_nil,
      hcount, ← List.map_append, List.range'_append_1]

end Numbers

section Bodies

variable {p : Program} {r : Recipe} {items : List Item}

/-- The rows of interpolated values. -/
theorem assigns_of_values {u : Names} (hu : Settled u) (recipe : String) {es : List Expr} {is : List Interpolation}
    {first : Nat} (hnamed : ∀ e ∈ es, e.Named)
    (hvalues : List.Forall₂ (fun e i => (evaluate e).run.run u = (.ok i.value, u)) es is)
    (hindex : is.map (·.index) = List.range' first es.length) :
    List.Forall₂ (Assigns u) (es.zipIdx first) (is.map (Interpolation.text recipe)) := by
  induction hvalues generalizing first with
  | nil => exact .nil
  | @cons e i es is hvalue _ ih =>
    rw [List.forall_mem_cons] at hnamed
    rw [List.map_cons, List.length_cons, List.range'_succ, List.cons.injEq] at hindex
    rw [List.zipIdx_cons, List.map_cons]
    have hrow := assignment?_interpolation recipe i
    have hword : Takes (fun _ => True) (evaluate e) fun u w => IsWord u e w := evaluate_takes fun _ _ => trivial
    have hsafe := (hword.of_run hu hvalue).safe hnamed.1
    rw [hindex.1] at hrow
    exact .cons ⟨i.value, _, congrArg Prod.fst hvalue, hrow, wordAt_word hsafe _⟩ (ih hnamed.2 hindex.2)

variable (hshell : p.settings.isGiven "shell" = true ↔ SetsShell items)

include hshell

/-- The rows of one line. -/
theorem commandLine_rows (attributes : List String) (first : Nat) {l : Line} (hparts : l.parts ≠ [])
    (hnamed : ∀ e ∈ interpolationsOf l.parts, e.Named) :
    Takes (fun _ => True) (commandLine p attributes r first l) fun u c => Settled u →
      c.interpolations.length = (interpolationsOf l.parts).length ∧ ∃ assigning running,
        c.texts r.name = assigning ++ running ∧
        List.Forall₂ (Assigns u) ((interpolationsOf l.parts).zipIdx first) assigning ∧
        RunsLine items attributes first l.parts running := by
  have hvalues := interpolate_takes (fun e (_ : e ∈ interpolationsOf l.parts) => evaluate_steady e) first
  refine hvalues.bind fun interpolations => Takes.bind (exportsOf_steady p r) fun exports => ?_
  refine Takes.bind (argumentsOf_steady p r true) fun arguments => .pure fun u _ _ hvalues hu => ?_
  refine ⟨hvalues.1.length_eq.symm, ?_⟩
  obtain ⟨shown, call, after, htexts, hnone⟩ := CommandLine.texts_eq r.name (⟨interpolations,
    commandWords (selfWord p attributes) first l.parts, r.echo != hasMark l '@', exports, arguments,
    endingOf attributes l⟩ : CommandLine)
  refine ⟨_, _, htexts, assigns_of_values hu r.name hnamed hvalues.1 hvalues.2, hnone, shown, _, _, after, _, rfl, ?_,
    fun env => executed_commandWords env hshell attributes first l.parts⟩
  exact wordAt_joinText (commandWords_ne_nil p attributes first hparts)
    (commandWords_safe p attributes first l.parts) call

/-- **The rows of all lines that are not left out**; the numbers go on from one to the next. -/
theorem commandLines_rows (attributes : List String) {ls : List Line} (hparts : ∀ l ∈ ls, l.parts ≠ [])
    (hnamed : ∀ l ∈ ls, ∀ e ∈ interpolationsOf l.parts, e.Named) (first : Nat) :
    Takes (fun _ => True) (commandLines p attributes r first ls) fun u cs => Settled u →
      BodyRows u items attributes first (keptLines p ls) (cs.flatMap (CommandLine.texts r.name)) := by
  induction ls generalizing first with
  | nil => exact .pure fun u _ => .nil first
  | cons l ls ih =>
    rw [List.forall_mem_cons] at hparts hnamed
    rw [commandLines]
    split
    · rename_i hignored
      have hkept : keptLines p (l :: ls) = keptLines p ls := List.filter_cons_of_neg (by rw [hignored]; decide)
      rw [hkept]
      exact ih hparts.2 hnamed.2 first
    · rename_i hignored
      have hkept : keptLines p (l :: ls) = l :: keptLines p ls :=
        List.filter_cons_of_pos (by rw [Bool.eq_false_iff.2 hignored]; rfl)
      rw [hkept]
      refine (commandLine_rows hshell attributes first hparts.1 hnamed.1).bind fun c => ?_
      refine (ih hparts.2 hnamed.2 (first + c.interpolations.length)).bind fun more => .pure fun u hmore hc hu => ?_
      obtain ⟨hlength, assigning, running, htexts, hassigning, hrunning⟩ := hc hu
      rw [List.flatMap_cons, htexts]
      refine .cons hassigning hrunning ?_
      rw [← hlength]
      exact hmore hu

end Bodies

/-- **The function of a recipe that is no file.** Its body stands between two comments. It has the rows of the lines
that are not left out, with numbers from one on. They assign the numbered variables each once and in order, one for
each interpolation. -/
def RecipeFunction.Interpolates (u : Names) (items : List Item) (p : Program) (attributes : List String)
    (r : Recipe) (f : RecipeFunction) : Prop :=
  ∃ setup rows teardown, f.text = define f.name (setup ++ "\n\n  # Recipe body\n" ++ lines rows ++
      "\n\n  # Post-recipe dependencies and teardown\n" ++ teardown) ∧
    BodyRows u items attributes 1 (keptLines p r.body) rows ∧
    assignedNames rows = (List.range' 1 (interpolationsIn (keptLines p r.body)).length).map interpolationName

theorem interpolates_of_body {u : Names} (hu : Settled u) {p : Program} {items : List Item}
    (hshell : p.settings.isGiven "shell" = true ↔ SetsShell items) {attributes : List String} {r : Recipe}
    (hr : r.isShebang = false) (hparts : ∀ l ∈ r.body, l.parts ≠ [])
    (hnamed : ∀ l ∈ r.body, ∀ e ∈ interpolationsOf l.parts, e.Named) {f : RecipeFunction} (hrecipe : f.recipe = r.name)
    (hbody : (bodyOf p attributes r).run.run u = (.ok f.body, u)) : f.Interpolates u items p attributes r := by
  have hrows : Takes (fun _ => True) (bodyOf p attributes r) fun u b => Settled u → ∃ rows,
      b.text r.name = lines rows ∧ BodyRows u items attributes 1 (keptLines p r.body) rows := by
    rw [bodyOf, hr]
    exact (commandLines_rows hshell attributes hparts hnamed 1).map fun u cs hcs hu => ⟨_, rfl, hcs hu⟩
  obtain ⟨rows, hlines, hrows⟩ := hrows.of_run hu hbody hu
  obtain ⟨setup, teardown, htext⟩ := f.text_body
  rw [hrecipe, hlines] at htext
  exact ⟨setup, rows, teardown, htext, hrows, hrows.assignedNames⟩

section Settings

variable {text : String} {items : List Item} {p : Program}

/-- The line is a comment, and the justfile asks for these to be left out. -/
def LeftOut (items : List Item) (l : Line) : Prop :=
  ("ignore-comments", .flag true) ∈ settingsIn items ∧ ∃ s rest, l.parts = .text s :: rest ∧ s.startsWith "#" = true

variable (hparse : parse text = .ok items) (hp : (Program.ofItems items).result .empty = .ok p)

include hparse hp

theorem find?_settings (n : String) (v : SettingValue) : p.settings.find? n = some v ↔ (n, v) ∈ settingsIn items :=
  ((Settings.ofItems_spec (parse_fits hparse)).2 _ (Program.assembled_of_ofItems hp).settings).2.2.2 n v

/-- A shell is given just if it is set. -/
theorem isGiven_shell_iff : p.settings.isGiven "shell" = true ↔ SetsShell items := by
  rw [Settings.isGiven_eq_true_iff (find?_settings hparse hp)]
  constructor
  · rintro ⟨v, hmem, hv⟩
    have hkind := parse_fits hparse _ hmem
    cases v with
    | words ss =>
      cases ss with
      | nil => cases hv
      | cons shell args => exact ⟨shell, args, hmem⟩
    | flag _ => exact absurd hkind (by decide : ¬ "shell" ∈ switchNames)
    | text _ => exact absurd hkind (by decide : ¬ "shell" = "tempdir")
    | missing => cases hkind
  · rintro ⟨shell, args, hmem⟩
    exact ⟨_, hmem, rfl⟩

theorem isIgnored_iff (l : Line) : isIgnored p l = true ↔ LeftOut items l := by
  unfold isIgnored LeftOut
  rw [Bool.and_eq_true, Settings.isGiven_switch (find?_settings hparse hp) (parse_fits hparse) (by decide)]
  refine and_congr_right fun _ => ?_
  split
  · rename_i s rest hparts
    rw [hparts]
    simp
  · rename_i hparts
    exact ⟨fun h => (by cases h), fun ⟨s, rest, h, _⟩ => absurd h (hparts s rest)⟩

end Settings

end Script

/-- **The functions of a script have the rows of their recipes.** -/
theorem Made.interpolates {edition : Edition} {outfile text : String} {items : List Item} {p : Program} {s : Script}
    (hparse : parse text = .ok items) (hp : (Program.ofItems items).result .empty = .ok p)
    (hs : (Script.ofProgram edition outfile text p).result ((Program.ofItems items).table .empty) = .ok s)
    (hmade : Made items p s (namesAfter edition outfile text items p)) :
    List.Forall₂ (fun x f => x.2.isShebang = false →
      Script.RecipeFunction.Interpolates (namesAfter edition outfile text items p) items p x.1 x.2 f)
      (recipesIn items) s.functions := by
  have hagain := Script.functions_again p (Program.settled_ofItems hp) hs
  rw [hmade.program.items] at hagain
  refine List.forall₂_iff_zip.2 ⟨hagain.length_eq, fun {x f} hxf hr => ?_⟩
  have hitem := mem_recipesIn.1 (List.of_mem_zip hxf).1
  have hfunction : (Script.recipeFunction p x.1 x.2).run.run (namesAfter edition outfile text items p) =
      (.ok f, namesAfter edition outfile text items p) := List.forall₂_zip hagain hxf
  obtain ⟨hrecipe, hbody⟩ := Script.body_of_recipeFunction p x.2 hmade.settled hfunction
  refine Script.interpolates_of_body hmade.settled (Script.isGiven_shell_iff hparse hp) hr (fun l hl => ?_)
    (fun l hl e he => parse_named hparse _ hitem e (mem_exprs_of_line hl he)) hrecipe hbody
  exact ((parse_shaped Parsing.grammatical_formed hparse _ hitem).2.lines l hl).1

/-- A comment that is left out, a call of `just` with a quote in it, and a line that is a single interpolation. -/
def interpolatingText : String :=
  "set ignore-comments := true\nx := 'v'\nr:\n  # \x7b\x7b x \x7d\x7d\n" ++
    "  @just a\x7b\x7b x \x7d\x7d'\x7b\x7b 'b' \x7d\x7d\n  \x7b\x7b `date` \x7d\x7d\n"

def interpolating : Recipe where
  echo := true
  name := "r"
  parameters := []
  variadic := none
  before := []
  after := []
  body := [⟨none, [.text "# ", .interpolation (.var "x")]⟩,
    ⟨some "@", [.text "just a", .interpolation (.var "x"), .text "'", .interpolation (.text "b")]⟩,
    ⟨none, [.interpolation (.backtick "date")]⟩]

def interpolatingItems : List Item :=
  [⟨[], .setting "ignore-comments" (.flag true)⟩, ⟨[], .assignment "x" (.text "v")⟩, ⟨[], .recipe interpolating⟩]

/-- A recipe that calls `just`, and a shell setting that is an empty list. -/
def callingJust : Recipe where
  echo := true
  name := "r"
  parameters := []
  variadic := none
  before := []
  after := []
  body := [⟨none, [.text "just x"]⟩]

def emptyShellItems : List Item :=
  [⟨[], .setting "shell" (.words [])⟩, ⟨[], .recipe callingJust⟩]

end Justfile
