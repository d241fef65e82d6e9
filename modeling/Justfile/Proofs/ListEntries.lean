import Justfile.Proofs.Interpolations

/-!
# Entries of the list of targets

A script lists its targets by one command for each. Its argument is put together from texts between apostrophes and
variables between double quotes, some of which are left out. It is one word, and where nothing is coloured it says the
target, its parameters as the justfile has them, and its description.

* `Param.shown`, `Program.shown`: what is to be shown about a parameter and about a target.
* `Listed.words`, `listed_text_eq`: the words that the argument of an entry is put together from.
* `filled_listedWords`: what these words say.
* `read_listed`: how a shell reads an entry.
* `list_entry_shows`: a shell reads the entry of a target as what is to be shown about it.
-/

namespace Justfile

open Shell Shell.Reader

/-- The sign before a variadic parameter. -/
def Arity.sign : Arity → String
  | .star => "*"
  | .plus => "+"

/-- What is to be shown about a parameter: the sign of a variadic one, a dollar sign if it is exported, its name, and
its default after an equals sign. -/
def Param.shown (q : Param) : Except Failure String := do
  let sign := match q with
    | .plain _ => ""
    | .variadic v => v.arity.sign
  let value ← match q.base.default with
    | some e => ("=" ++ ·) <$> e.source 0
    | none => pure ""
  pure (sign ++ (if q.base.exported then "$" else "") ++ q.base.name ++ value)

/-- A description after a number sign; nothing if it is empty. -/
def shownDoc (doc : Option String) : String :=
  if doc.getD "" = "" then "" else " # " ++ doc.getD ""

/-- What is to be shown about a target: its parameters, each after a blank, and its description. -/
def Program.shown (p : Program) (target : String) : Except Failure String := do
  let params ← ((p.parameters.find? target).getD []).mapM Param.shown
  pure (target ++ String.join (params.map (" " ++ ·)) ++ shownDoc (p.docs.find? target))

/-- The variables of a script that hold colours. -/
def colourVariables : List String :=
  ["NOCOLOR", "BOLD", "RED", "YELLOW", "CYAN", "GREEN", "PINK", "BLUE"]

namespace Script

section Shown

/-- What a label says. -/
def Label.shown (l : Label) : String :=
  (l.arity.map Arity.sign).getD "" ++ (if l.exported then "$" else "") ++ l.name ++ (l.default.map ("=" ++ ·)).getD ""

/-- What an entry says. -/
def Listed.shown (l : Listed) : String :=
  l.target ++ String.join (l.labels.map fun q => " " ++ q.shown) ++ shownDoc l.doc

/-- A label says what is to be shown about its parameter. -/
theorem shown_eq_label (q : Param) : q.shown = Label.shown <$> Label.ofParam q := by
  unfold Param.shown Label.ofParam
  cases hdefault : q.base.default with
  | none => cases q <;> rfl
  | some e =>
    simp only
    cases e.source 0 with
    | error f => rfl
    | ok source => cases q <;> rfl

theorem mapM_shown {qs : List Param} {ls : List Label} (h : qs.mapM Label.ofParam = .ok ls) :
    qs.mapM Param.shown = .ok (ls.map Label.shown) := by
  induction qs generalizing ls with
  | nil =>
    cases h
    rfl
  | cons q qs ih =>
    rw [List.mapM_cons] at h
    cases hq : Label.ofParam q with
    | error f =>
      rw [hq] at h
      cases h
    | ok l =>
      rw [hq] at h
      cases hqs : qs.mapM Label.ofParam with
      | error f =>
        rw [hqs] at h
        cases h
      | ok ls' =>
        rw [hqs] at h
        cases h
        rw [List.mapM_cons, shown_eq_label, hq, ih hqs]
        rfl

/-- **An entry says what is to be shown about its target.** -/
theorem shown_of_listedOf {p : Program} {target : String} {l : Listed} (h : listedOf p target = .ok l) :
    p.shown target = .ok l.shown := by
  unfold listedOf at h
  unfold Program.shown
  cases hlabels : ((p.parameters.find? target).getD []).mapM Label.ofParam with
  | error f =>
    rw [hlabels] at h
    cases h
  | ok labels =>
    rw [hlabels] at h
    cases h
    rw [mapM_shown hlabels]
    simp only [bind, Except.bind, pure, Except.pure, List.map_map]
    rfl

end Shown

section Words

/-- A text in a colour. -/
def colouredWords (colour s : String) : List Word :=
  [.valueOf colour, .literal s, .valueOf "NOCOLOR"]

/-- The words of the sign of a variadic parameter. -/
def arityWords : Option Arity → List Word
  | some a => colouredWords "PINK" a.sign
  | none => []

/-- The words of a default. -/
def defaultWords : Option String → List Word
  | some source => .literal "=" :: colouredWords "GREEN" source
  | none => []

/-- The words of a label. -/
def Label.words (l : Label) : List Word :=
  arityWords l.arity ++ ((if l.exported then [.literal "$"] else []) ++
    (colouredWords "CYAN" l.name ++ defaultWords l.default))

/-- The words of a description. -/
def docWords (doc : Option String) : List Word :=
  if doc.getD "" = "" then [] else [.literal (" # " ++ doc.getD "")]

/-- The words of the argument of an entry. -/
def Listed.words (l : Listed) : List Word :=
  .valueOf "LIST_PREFIX" :: .literal l.target :: (l.labels.flatMap (fun q => .literal " " :: q.words) ++
    .valueOf "BLUE" :: (docWords l.doc ++ [.valueOf "NOCOLOR"]))

theorem joinText_nil : joinText [] = "" := rfl

theorem joinText_cons (w : Word) (ws : List Word) : joinText (w :: ws) = w.text ++ joinText ws := by
  rw [joinText, List.map_cons, String.join_cons]
  rfl

theorem joinText_append (ws vs : List Word) : joinText (ws ++ vs) = joinText ws ++ joinText vs := by
  rw [joinText, List.map_append, String.join_append]
  rfl

theorem text_literal (s : String) : (Word.literal s).text = quote s := by
  rw [Word.text, Word.chars, quote]

theorem text_valueOf {name : String} (h : isShellName name.toList = true) :
    (Word.valueOf name).text = valueText name := by
  have hq : '"' ∉ Word.reference name := by
    have := doubleQuote_not_mem h
    simp [Word.reference, this]
  rw [← String.toList_inj, Word.text, String.toList_ofList, Word.chars, quoteChars_of_not_mem hq, valueText,
    String.toList_append, String.toList_append, Word.reference]
  simp

theorem coloured_eq {colour : String} (h : isShellName colour.toList = true) (s : String) :
    Label.coloured colour (quote s) = joinText (colouredWords colour s) := by
  rw [colouredWords, joinText_cons, joinText_cons, joinText_cons, joinText_nil, text_valueOf h, text_literal,
    text_valueOf (by decide), Label.coloured, String.append_empty, String.append_assoc]

theorem arityText_eq (arity : Option Arity) : Label.arityText arity = joinText (arityWords arity) := by
  have hstar : "'*'" = quote "*" := by decide +kernel
  have hplus : "'+'" = quote "+" := by decide +kernel
  cases arity with
  | none => rfl
  | some a =>
    cases a with
    | star =>
      rw [Label.arityText, hstar]
      exact coloured_eq (by decide) "*"
    | plus =>
      rw [Label.arityText, hplus]
      exact coloured_eq (by decide) "+"

/-- The text of a label is that of its words. -/
theorem label_text_eq (l : Label) : l.text = joinText l.words := by
  have hequals : "'='" = quote "=" := by decide +kernel
  have hdollar : "'$'" = quote "$" := by decide +kernel
  have hexported : (if l.exported then "'$'" else "") = joinText (if l.exported then [.literal "$"] else []) := by
    cases l.exported with
    | false => rfl
    | true => rw [if_pos rfl, if_pos rfl, joinText_cons, joinText_nil, text_literal, String.append_empty, hdollar]
  obtain ⟨arity, exported, name, default⟩ := l
  rw [Label.words, joinText_append, joinText_append, joinText_append, ← arityText_eq, ← hexported,
    ← coloured_eq (by decide)]
  cases default with
  | none => simp only [Label.text, defaultWords, joinText_nil, String.append_assoc]
  | some source =>
    simp only [Label.text, defaultWords, joinText_cons, text_literal, hequals, String.append_assoc]
    rw [coloured_eq (by decide) source]

theorem labelText_eq (ls : List Label) :
    Listed.labelText ls = joinText (ls.flatMap fun q => .literal " " :: q.words) := by
  have hcons : ∀ q : Label, ∀ ls : List Label, Listed.labelText (q :: ls) =
      "' '" ++ (q.text ++ Listed.labelText ls) := by
    intro q ls
    cases ls with
    | nil => simp [Listed.labelText, Label.join, String.intercalate_singleton]
    | cons r ls =>
      simp only [Listed.labelText, Label.join, List.isEmpty_cons, List.map_cons, String.intercalate_cons_cons,
        String.append_assoc]
      rfl
  induction ls with
  | nil => rfl
  | cons q ls ih =>
    rw [hcons, ih, List.flatMap_cons, joinText_append, joinText_cons, ← label_text_eq, String.append_assoc]
    rfl

theorem docText_eq (doc : Option String) : Listed.docText doc = joinText (docWords doc) := by
  cases doc with
  | none => rfl
  | some s =>
    by_cases hs : s = ""
    · subst hs
      rfl
    · have hempty : s.isEmpty = false := by simpa using hs
      have hsome : (some s).getD "" = s := rfl
      rw [Listed.docText, docWords, hsome, if_neg hs, hempty, joinText_cons, joinText_nil, text_literal,
        String.append_empty]
      rfl

/-- **The words that an entry is put together from.** -/
theorem listed_text_eq (l : Listed) : l.text = "echo " ++ joinText l.words := by
  have hecho : "echo \"${LIST_PREFIX}\"" = "echo " ++ valueText "LIST_PREFIX" := by decide +kernel
  have hblue : valueText "BLUE" = "\"${BLUE}\"" := by decide +kernel
  have hplain : valueText "NOCOLOR" = "\"${NOCOLOR}\"" := by decide +kernel
  unfold Listed.text Listed.words
  rw [joinText_cons, joinText_cons, joinText_append, joinText_cons, joinText_append, joinText_cons, joinText_nil,
    ← labelText_eq, ← docText_eq, text_valueOf (by decide), text_valueOf (by decide), text_valueOf (by decide),
    text_literal, hecho, hblue, hplain]
  simp only [String.append_assoc, String.append_empty]

end Words

section Reading

theorem safe_colouredWords {colour : String} (h : isShellName colour.toList = true) (s : String) :
    ∀ w ∈ colouredWords colour s, w.Safe := by
  have hplain : isShellName "NOCOLOR".toList = true := by decide
  intro w hw
  simp only [colouredWords, List.mem_cons, List.not_mem_nil, or_false] at hw
  rcases hw with rfl | rfl | rfl
  · rwa [Word.Safe]
  · simp only [Word.Safe]
  · rwa [Word.Safe]

theorem safe_labelWords (l : Label) : ∀ w ∈ l.words, w.Safe := by
  intro w hw
  simp only [Label.words, List.mem_append] at hw
  rcases hw with hw | hw | hw | hw
  · unfold arityWords at hw
    split at hw
    · exact safe_colouredWords (by decide) _ w hw
    · cases hw
  · split at hw
    · rw [List.mem_singleton.1 hw]
      simp only [Word.Safe]
    · cases hw
  · exact safe_colouredWords (by decide) _ w hw
  · unfold defaultWords at hw
    split at hw
    · rcases List.mem_cons.1 hw with rfl | hw
      · simp only [Word.Safe]
      · exact safe_colouredWords (by decide) _ w hw
    · cases hw

theorem safe_listedWords (l : Listed) : ∀ w ∈ l.words, w.Safe := by
  have hvalue : ∀ {name : String}, isShellName name.toList = true → (Word.valueOf name).Safe := by
    intro name h
    rwa [Word.Safe]
  have hliteral : ∀ s, (Word.literal s).Safe := by
    intro s
    simp only [Word.Safe]
  intro w hw
  simp only [Listed.words, List.mem_cons, List.mem_append, List.mem_flatMap, List.not_mem_nil, or_false] at hw
  rcases hw with rfl | rfl | ⟨q, -, rfl | hw⟩ | rfl | hw | rfl
  · exact hvalue (by decide)
  · exact hliteral _
  · exact hliteral _
  · exact safe_labelWords q w hw
  · exact hvalue (by decide)
  · unfold docWords at hw
    split at hw
    · cases hw
    · rw [List.mem_singleton.1 hw]
      exact hliteral _
  · exact hvalue (by decide)

/-- **How a shell reads an entry**: a command with one argument. -/
theorem read_listed (l : Listed) :
    read l.text = some [.word (lettersOf "echo"), .word (l.words.flatMap Word.pieces)] := by
  have hsafe := safe_listedWords l
  obtain ⟨w, ws, hwords⟩ : ∃ w ws, l.words = w :: ws := ⟨_, _, rfl⟩
  rw [listed_text_eq, hwords]
  rw [hwords, List.forall_mem_cons] at hsafe
  have hchars : ("echo " ++ joinText (w :: ws)).toList =
      "echo ".toList ++ (w.chars ++ ws.flatMap Word.chars) := by
    rw [String.toList_append, joinText, String.toList_join, List.flatMap_map, List.flatMap_cons]
    simp only [Word.text, String.toList_ofList]
  -- the blank after the command ends its word; no word of the argument ends before the last one does
  have hecho : run ⟨.fresh, []⟩ "echo ".toList = some ⟨⟨[.word (lettersOf "echo")], none, .plain⟩, []⟩ := rfl
  unfold Reader.read
  rw [hchars, run_append_of_run hecho, run_append_of_run (run_word w hsafe.1 _ _ _), run_words hsafe.2]
  rfl

end Reading

section Meaning

variable {env : String → String}

/-- What words say one after the other. -/
theorem filled_words_append {ws vs : List Word} {s t : String} (hs : filled env (ws.flatMap Word.pieces) = lettersOf s)
    (ht : filled env (vs.flatMap Word.pieces) = lettersOf t) :
    filled env ((ws ++ vs).flatMap Word.pieces) = lettersOf (s ++ t) := by
  rw [List.flatMap_append, filled_append, hs, ht, lettersOf_append]

theorem filled_words_nil : filled env (([] : List Word).flatMap Word.pieces) = lettersOf "" := rfl

theorem filled_words_literal (s : String) : filled env ([Word.literal s].flatMap Word.pieces) = lettersOf s := by
  rw [List.flatMap_singleton, Word.pieces, filled_lettersOf]

theorem filled_words_value {name s : String} (h : env name = s) :
    filled env ([Word.valueOf name].flatMap Word.pieces) = lettersOf s := by
  rw [List.flatMap_singleton, Word.pieces, filled_value, h]

variable (hcolours : ∀ colour ∈ colourVariables, env colour = "")

include hcolours

theorem filled_colouredWords {colour : String} (hcolour : colour ∈ colourVariables) (s : String) :
    filled env ((colouredWords colour s).flatMap Word.pieces) = lettersOf s := by
  have h := filled_words_append (filled_words_value (hcolours colour hcolour))
    (filled_words_append (filled_words_literal s) (filled_words_value (hcolours "NOCOLOR" (by decide))))
  rwa [String.append_empty, String.empty_append] at h

theorem filled_arityWords (arity : Option Arity) :
    filled env ((arityWords arity).flatMap Word.pieces) = lettersOf ((arity.map Arity.sign).getD "") := by
  cases arity with
  | none => rfl
  | some a => exact filled_colouredWords hcolours (by decide) a.sign

theorem filled_defaultWords (default : Option String) :
    filled env ((defaultWords default).flatMap Word.pieces) = lettersOf ((default.map ("=" ++ ·)).getD "") := by
  cases default with
  | none => rfl
  | some source =>
    exact filled_words_append (filled_words_literal "=") (filled_colouredWords hcolours (by decide) source)

theorem filled_labelWords (l : Label) : filled env (l.words.flatMap Word.pieces) = lettersOf l.shown := by
  have hexported : filled env ((if l.exported then [Word.literal "$"] else []).flatMap Word.pieces) =
      lettersOf (if l.exported then "$" else "") := by
    cases l.exported with
    | false => rfl
    | true => exact filled_words_literal "$"
  have hname : filled env ((colouredWords "CYAN" l.name).flatMap Word.pieces) = lettersOf l.name :=
    filled_colouredWords hcolours (by decide) l.name
  have h := filled_words_append (filled_arityWords hcolours l.arity) (filled_words_append hexported
    (filled_words_append hname (filled_defaultWords hcolours l.default)))
  rwa [← String.append_assoc, ← String.append_assoc] at h

theorem filled_labelsWords (ls : List Label) :
    filled env ((ls.flatMap fun q => .literal " " :: q.words).flatMap Word.pieces) =
      lettersOf (String.join (ls.map fun q => " " ++ q.shown)) := by
  induction ls with
  | nil => rfl
  | cons q ls ih =>
    rw [List.flatMap_cons, List.map_cons, String.join_cons]
    exact filled_words_append (filled_words_append (filled_words_literal " ") (filled_labelWords hcolours q)) ih

omit hcolours in
theorem filled_docWords (doc : Option String) :
    filled env ((docWords doc).flatMap Word.pieces) = lettersOf (shownDoc doc) := by
  unfold docWords shownDoc
  split
  · exact filled_words_nil
  · exact filled_words_literal _

/-- **What the words of an entry say**, where nothing is coloured. -/
theorem filled_listedWords (l : Listed) :
    filled env (l.words.flatMap Word.pieces) = lettersOf (env "LIST_PREFIX" ++ l.shown) := by
  -- the description stands between two colours, which say nothing
  have hend := filled_words_append (filled_words_value (hcolours "BLUE" (by decide)))
    (filled_words_append (filled_docWords l.doc) (filled_words_value (hcolours "NOCOLOR" (by decide))))
  rw [String.append_empty, String.empty_append] at hend
  have hlead : filled env ([Word.valueOf "LIST_PREFIX"].flatMap Word.pieces) = lettersOf (env "LIST_PREFIX") :=
    filled_words_value rfl
  have h := filled_words_append hlead (filled_words_append (filled_words_literal l.target)
    (filled_words_append (filled_labelsWords hcolours l.labels) hend))
  rw [Listed.shown, String.append_assoc]
  exact h

end Meaning

end Script

/-- **A list shows what the justfile says.** For every target of a justfile there is an entry. A shell reads it as a
command with one argument, and where the colours are empty that is the prefix of lists, the target, its parameters as
the justfile has them and its description, whatever characters these have. -/
theorem list_entry_shows {text : String} {items : List Item} {p : Program} (hparse : parse text = .ok items)
    (hp : (Program.ofItems items).result .empty = .ok p) (target : String) :
    ∃ l shown pieces, Script.listedOf p target = .ok l ∧ p.shown target = .ok shown ∧
      read l.text = some [.word (lettersOf "echo"), .word pieces] ∧
      ∀ env, (∀ colour ∈ colourVariables, env colour = "") →
        filled env pieces = lettersOf (env "LIST_PREFIX" ++ shown) := by
  have hformed := parse_shaped Parsing.grammatical_formed hparse
  obtain ⟨l, hl⟩ := Script.listedOf_ok (Program.formed_of_ofItems hformed hp) target
  exact ⟨l, l.shown, _, hl, Script.shown_of_listedOf hl, Script.read_listed l,
    fun env hcolours => Script.filled_listedWords hcolours l⟩

/-- A recipe with an exported and a variadic parameter, whose defaults and description have all kinds of quotes. -/
def describedText : String := "# it's `$HOME`\nr $a=\"it's\" *b=('\"' + a):\n"

def describedItems : List Item :=
  [⟨[], .comment "it's `$HOME`"⟩,
    ⟨[], .recipe { idleRecipe "r" with
      parameters := [⟨true, "a", some (.text "it's")⟩]
      variadic := some ⟨.star, ⟨false, "b", some (.sum (.text "\"") (.var "a"))⟩⟩ }⟩]

theorem list_entry_shows_described :
    parse describedText = .ok describedItems ∧
    ∃ p l pieces, (Program.ofItems describedItems).result .empty = .ok p ∧ Script.listedOf p "r" = .ok l ∧
      read l.text = some [.word (lettersOf "echo"), .word pieces] ∧
      filled (fun name => if name = "LIST_PREFIX" then "> " else "") pieces =
        lettersOf "> r $a=\"it's\" *b=(\"\\\"\" + a) # it's `$HOME`" := by
  have hparse : parse describedText = .ok describedItems := by decide +kernel
  obtain ⟨script, hscript⟩ := compile_succeeds isDate_sample hparse rfl (by decide) rfl
  obtain ⟨p, s, hp, -, -⟩ := compile_eq_ok hparse hscript
  obtain ⟨l, shown, pieces, hl, hshown, hread, hfilled⟩ := list_entry_shows hparse hp "r"
  have hprogram := Program.assembled_of_ofItems hp
  have hsays : p.shown "r" = .ok "r $a=\"it's\" *b=(\"\\\"\" + a) # it's `$HOME`" := by
    unfold Program.shown
    rw [hprogram.docs, hprogram.parameters]
    decide +kernel
  obtain rfl := Except.ok.inj (hshown.symm.trans hsays)
  refine ⟨hparse, p, l, pieces, hp, hl, hread, ?_⟩
  exact (hfilled _ (by decide)).trans (congrArg lettersOf (by decide +kernel))

end Justfile
