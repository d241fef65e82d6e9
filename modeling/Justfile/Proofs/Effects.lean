import Justfile.Command.Run
import Justfile.Proofs.Arguments
import Justfile.Proofs.Declared
import Justfile.Proofs.Listening

/-!
# What a run of the compiler leaves behind

A run reads one text and writes at most one file. It opens that file before it compiles the text, so what the
file had is gone also if there is no script.

* `fst_compileText`: with and without a trace a text is compiled to the same script.
* `Invocation.IsInput`: the text that a run reads. `input_eq_ok_iff`: this is what it reads.
* `Invocation.Ends`: the ways for a run to end, with the files that it leaves. `compileChosen_ends`: there are no
  others.
* `Invocation.Leaves`: what a run does to the files. `run_writes_outfile`: every run does this.
* `refused_run_empties`: what becomes of the output file if there is no script.
-/

namespace Justfile.Command

open Options

theorem fst_readItems (verbose : Bool) (text : String) : (readItems verbose text).1 = parse text := by
  unfold readItems
  cases verbose with
  | false => rw [if_neg Bool.false_ne_true]
  | true => rw [if_pos rfl, ← fst_parseTraced text]

/-- With and without a trace a text is compiled to the same script. -/
theorem fst_compileText (edition : Edition) (outfile : String) (verbose : Bool) (text : String) :
    (compileText edition outfile verbose text).1 = compile edition outfile text := by
  have hitems := fst_readItems verbose text
  unfold compileText compile
  rw [← hitems]
  rcases readItems verbose text with ⟨_ | _, _⟩ <;> rfl

/-- A text that cannot be read has no script. -/
theorem compile_of_unread (edition : Edition) (outfile : String) {text : String} {f : Failure}
    (h : parse text = .error f) : (compile edition outfile text).script = .error f := by
  unfold compile
  rw [h]

namespace Files

variable {folders : List String} {fs : Files}

theorem read_eq_ok_iff {path text : String} :
    fs.read folders path = .ok text ↔ ∃ name f, fs.locate folders .reading path = .ok name ∧
      fs.find? name = some f ∧ f.unified = text := by
  unfold read
  cases hname : fs.locate folders .reading path with
  | error f => exact ⟨nofun, fun ⟨_, _, h, _⟩ => nomatch h⟩
  | ok name =>
    cases hfile : fs.find? name with
    | none =>
      refine ⟨fun h => ?_, ?_⟩
      · simp [bind, Except.bind, hfile] at h
      · rintro ⟨_, f, ⟨⟩, hf, -⟩
        rw [hfile] at hf
        cases hf
    | some f =>
      refine ⟨fun h => ⟨name, f, rfl, hfile, ?_⟩, ?_⟩
      · simpa [bind, Except.bind, hfile, pure, Except.pure] using h
      · rintro ⟨_, f, ⟨⟩, hf, rfl⟩
        simp [bind, Except.bind, hf, pure, Except.pure]

/-- The names under which a justfile is looked for lead to files of those names. -/
theorem locate_of_mem_justfileNames {access : Access} {name : String} (h : name ∈ justfileNames) :
    fs.locate folders access name = .ok name := by
  have hdown : name ∈ justfileNames → name.isEmpty = false ∧ (steps name).all isDots = false ∧
      name.endsWith "/" = false ∧ (steps name).getLast?.any isDots = false ∧
      name.startsWith "/" = false ∧ (steps name).dropWhile (· == ".") = [name] := by
    revert name
    decide +kernel
  obtain ⟨hempty, hdots, hend, hlast, hstart, hdrop⟩ := hdown h
  unfold locate
  simp only [hempty, hdots, hend, hlast, hstart, hdrop, Bool.false_eq_true, if_false, Bool.or_self]
  exact ite_self _

theorem find?_emptied_self (name : String) : (fs.emptied name).find? name =
    some ⟨"", ((fs.find? name).map (·.executable)).getD false⟩ :=
  Table.find?_put_self ..

theorem find?_emptied_eq_iff {name : String} :
    (fs.emptied name).find? name = fs.find? name ↔ (fs.find? name).map (·.text) = some "" := by
  rw [find?_emptied_self]
  cases fs.find? name with
  | none => exact ⟨nofun, nofun⟩
  | some f =>
    obtain ⟨text, executable⟩ := f
    exact ⟨fun h => by cases h; rfl, fun h => by cases h; rfl⟩

theorem find?_emptied_of_ne {name other : String} (h : other ≠ name) :
    (fs.emptied name).find? other = fs.find? other :=
  Table.find?_put_of_ne fs _ h

theorem find?_withScript_self (name text : String) :
    (fs.withScript name text).find? name = some ⟨text, true⟩ :=
  Table.find?_put_self ..

theorem find?_withScript_of_ne {name other : String} (text : String) (h : other ≠ name) :
    (fs.withScript name text).find? other = fs.find? other :=
  Table.find?_put_of_ne fs _ h

end Files

namespace Invocation

variable {i : Invocation} {chosen : List (Choice Key)} {text : String}

/-- The text that a run reads: the file that is chosen or, for a lone dash, standard input. If nothing is chosen it
is the first justfile that is there, else standard input. -/
inductive IsInput (i : Invocation) (chosen : List (Choice Key)) : String → Prop
  | dash (h : lastValue? chosen .infile = some "-") : IsInput i chosen i.stdin
  | file {path name : String} {f : File} (h : lastValue? chosen .infile = some path) (hpath : path ≠ "-")
      (hname : i.files.locate i.folders .reading path = .ok name) (hfile : i.files.find? name = some f) :
      IsInput i chosen f.unified
  | first {before after : List String} {name : String} {f : File} (h : lastValue? chosen .infile = none)
      (hnames : justfileNames = before ++ name :: after) (hbefore : ∀ b ∈ before, i.files.find? b = none)
      (hfile : i.files.find? name = some f) : IsInput i chosen f.unified
  | nothing (h : lastValue? chosen .infile = none) (hnone : ∀ name ∈ justfileNames, i.files.find? name = none) :
      IsInput i chosen i.stdin

theorem infile_of_chosen {path : String} (h : lastValue? chosen .infile = some path) :
    i.infile chosen = some path := by
  unfold infile
  rw [h]

theorem infile_of_none (h : lastValue? chosen .infile = none) :
    i.infile chosen = justfileNames.find? fun name => i.files.contains name := by
  unfold infile
  rw [h]

theorem input_infile_of_isInput (h : i.IsInput chosen text) : i.input (i.infile chosen) = .ok text := by
  cases h with
  | dash h =>
    rw [infile_of_chosen h]
    rfl
  | file h hpath hname hfile =>
    rw [infile_of_chosen h, input, if_neg hpath]
    exact Files.read_eq_ok_iff.2 ⟨_, _, hname, hfile, rfl⟩
  | @first before after name f h hnames hbefore hfile =>
    have hmem : name ∈ justfileNames := hnames ▸ List.mem_append_right _ List.mem_cons_self
    -- a name that is looked for is never taken for standard input
    have hdash : name ≠ "-" := by
      rintro rfl
      exact absurd hmem (by decide)
    have hfound : (justfileNames.find? fun name => i.files.contains name) = some name := by
      rw [List.find?_eq_some_iff_append]
      refine ⟨by simp [Table.contains, hfile], before, after, hnames, fun b hb => ?_⟩
      simp [Table.contains, hbefore b hb]
    rw [infile_of_none h, hfound, input, if_neg hdash]
    exact Files.read_eq_ok_iff.2 ⟨_, _, Files.locate_of_mem_justfileNames hmem, hfile, rfl⟩
  | nothing h hnone =>
    have hfound : (justfileNames.find? fun name => i.files.contains name) = none :=
      List.find?_eq_none.2 fun name hname => by simp [Table.contains, hnone name hname]
    rw [infile_of_none h, hfound]
    rfl

theorem isInput_of_input_infile (h : i.input (i.infile chosen) = .ok text) : i.IsInput chosen text := by
  cases hchosen : lastValue? chosen .infile with
  | some path =>
    rw [infile_of_chosen hchosen, input] at h
    by_cases hdash : path = "-"
    · rw [if_pos hdash] at h
      cases h
      exact .dash (hdash ▸ hchosen)
    · rw [if_neg hdash] at h
      obtain ⟨name, f, hname, hfile, rfl⟩ := Files.read_eq_ok_iff.1 h
      exact .file hchosen hdash hname hfile
  | none =>
    rw [infile_of_none hchosen] at h
    cases hfound : justfileNames.find? fun name => i.files.contains name with
    | none =>
      rw [hfound] at h
      cases h
      refine .nothing hchosen fun name hname => ?_
      simpa [Table.contains] using List.find?_eq_none.1 hfound name hname
    | some name =>
      obtain ⟨_, before, after, hnames, hbefore⟩ := List.find?_eq_some_iff_append.1 hfound
      have hmem : name ∈ justfileNames := hnames ▸ List.mem_append_right _ List.mem_cons_self
      have hdash : name ≠ "-" := by
        rintro rfl
        exact absurd hmem (by decide)
      rw [hfound, input, if_neg hdash] at h
      obtain ⟨_, f, hname, hfile, rfl⟩ := Files.read_eq_ok_iff.1 h
      rw [Files.locate_of_mem_justfileNames hmem] at hname
      cases hname
      exact .first hchosen hnames (fun b hb => by simpa [Table.contains] using hbefore b hb) hfile

theorem input_eq_ok_iff : i.input (i.infile chosen) = .ok text ↔ i.IsInput chosen text :=
  ⟨isInput_of_input_infile, input_infile_of_isInput⟩

theorem IsInput.unique {text' : String} (h : i.IsInput chosen text) (h' : i.IsInput chosen text') : text = text' := by
  have heq := (input_eq_ok_iff.2 h).symm.trans (input_eq_ok_iff.2 h')
  cases heq
  rfl

/-- The ways for a run on chosen options to end. What it writes besides files is left open. -/
inductive Ends (i : Invocation) (chosen : List (Choice Key)) : Result → Prop
  | version {out : String} (h : isChosen chosen .version = true) : Ends i chosen ⟨0, out, "", i.files, none⟩
  | unread {f : PathFault} {err : String} (hversion : isChosen chosen .version = false)
      (h : ∀ text, ¬i.IsInput chosen text) : Ends i chosen ⟨1, "", err, i.files, some (.path f)⟩
  | printed {text script trace err : String} (hversion : isChosen chosen .version = false)
      (hout : outfileOf chosen = "-") (hinput : i.IsInput chosen text)
      (hscript : (compile i.edition "just.sh" text).script = .ok script) :
      Ends i chosen ⟨0, trace ++ script, err, i.files, none⟩
  | unprinted {text trace err : String} {f : Failure} (hversion : isChosen chosen .version = false)
      (hout : outfileOf chosen = "-") (hinput : i.IsInput chosen text)
      (hscript : (compile i.edition "just.sh" text).script = .error f) :
      Ends i chosen ⟨1, trace, err, i.files, some (.refused f)⟩
  | unopened {text err : String} {f : PathFault} (hversion : isChosen chosen .version = false)
      (hout : outfileOf chosen ≠ "-") (hinput : i.IsInput chosen text)
      (hplace : i.files.locate i.folders .writing (outfileOf chosen) = .error f) :
      Ends i chosen ⟨1, "", err, i.files, some (.path f)⟩
  | written {text name script trace err : String} (hversion : isChosen chosen .version = false)
      (hout : outfileOf chosen ≠ "-") (hinput : i.IsInput chosen text)
      (hplace : i.files.locate i.folders .writing (outfileOf chosen) = .ok name)
      (hscript : (compile i.edition (outfileOf chosen) text).script = .ok script) :
      Ends i chosen ⟨0, trace, err, i.files.withScript name script, none⟩
  | refused {text name trace err : String} {f : Failure} (hversion : isChosen chosen .version = false)
      (hout : outfileOf chosen ≠ "-") (hinput : i.IsInput chosen text)
      (hplace : i.files.locate i.folders .writing (outfileOf chosen) = .ok name)
      (hscript : (compile i.edition (outfileOf chosen) text).script = .error f) :
      Ends i chosen ⟨1, trace, err, i.files.emptied name, some (.refused f)⟩

theorem compileToStdout_ends (hversion : isChosen chosen .version = false) (hout : outfileOf chosen = "-")
    (hinput : i.IsInput chosen text) (verbose : Bool) (err : String) :
    i.Ends chosen (i.compileToStdout verbose err text) := by
  have hreport := fst_compileText i.edition "just.sh" verbose text
  unfold compileToStdout
  rcases htext : compileText i.edition "just.sh" verbose text with ⟨⟨warnings, script⟩, trace⟩
  rw [htext] at hreport
  cases script with
  | ok script => exact .printed hversion hout hinput (by rw [← hreport])
  | error f => exact .unprinted hversion hout hinput (by rw [← hreport])

theorem compileToFile_ends (hversion : isChosen chosen .version = false) (hout : outfileOf chosen ≠ "-")
    (hinput : i.IsInput chosen text) (verbose : Bool) (err : String) :
    i.Ends chosen (i.compileToFile verbose (outfileOf chosen) err text) := by
  have hreport := fst_compileText i.edition (outfileOf chosen) verbose text
  unfold compileToFile
  cases hplace : i.files.locate i.folders .writing (outfileOf chosen) with
  | error f => exact .unopened hversion hout hinput hplace
  | ok name =>
    rcases htext : compileText i.edition (outfileOf chosen) verbose text with ⟨⟨warnings, script⟩, trace⟩
    rw [htext] at hreport
    cases script with
    | ok script => exact .written hversion hout hinput hplace (by rw [← hreport])
    | error f => exact .refused hversion hout hinput hplace (by rw [← hreport])

/-- There is no other way for a run to end. -/
theorem compileChosen_ends (i : Invocation) (chosen : List (Choice Key)) : i.Ends chosen (i.compileChosen chosen) := by
  unfold compileChosen
  cases hversion : isChosen chosen .version with
  | true => exact .version hversion
  | false =>
    rw [if_neg Bool.false_ne_true]
    dsimp only
    cases hinput : i.input (i.infile chosen) with
    | error f =>
      refine .unread hversion fun text h => ?_
      rw [input_infile_of_isInput h] at hinput
      cases hinput
    | ok text =>
      have hinput := isInput_of_input_infile hinput
      by_cases hout : outfileOf chosen = "-"
      · simp only [if_pos hout]
        exact compileToStdout_ends hversion hout hinput ..
      · simp only [if_neg hout]
        exact compileToFile_ends hversion hout hinput ..

/-- A run has a script to write to a file. -/
def Compiles (i : Invocation) (chosen : List (Choice Key)) (name script : String) : Prop :=
  ∃ text, i.IsInput chosen text ∧ i.files.locate i.folders .writing (outfileOf chosen) = .ok name ∧
    (compile i.edition (outfileOf chosen) text).script = .ok script

/-- What a run on chosen options does to the files. -/
structure Leaves (i : Invocation) (chosen : List (Choice Key)) (r : Result) : Prop where
  /-- Without an output file none is written. -/
  idle : isChosen chosen .version = true ∨ outfileOf chosen = "-" → r.files = i.files
  /-- Any file but the output file stays as it is. -/
  others : ∀ name, i.files.locate i.folders .writing (outfileOf chosen) ≠ .ok name →
    r.files.find? name = i.files.find? name
  /-- A run to an output file succeeds if there is a script for it. -/
  exit : isChosen chosen .version = false → outfileOf chosen ≠ "-" →
    (r.exit = 0 ↔ ∃ name script, i.Compiles chosen name script)
  /-- The output file then has the script and is executable. -/
  script : isChosen chosen .version = false → outfileOf chosen ≠ "-" →
    ∀ name script, i.Compiles chosen name script → r.files.find? name = some ⟨script, true⟩

theorem Compiles.unique {name name' script script' : String} (h : i.Compiles chosen name script)
    (h' : i.Compiles chosen name' script') : name = name' ∧ script = script' := by
  obtain ⟨text, hinput, hplace, hscript⟩ := h
  obtain ⟨text', hinput', hplace', hscript'⟩ := h'
  cases hinput.unique hinput'
  exact ⟨Except.ok.inj (hplace.symm.trans hplace'), Except.ok.inj (hscript.symm.trans hscript')⟩

theorem not_compiles_of_unread (h : ∀ text, ¬i.IsInput chosen text) {name script : String} :
    ¬i.Compiles chosen name script :=
  fun ⟨text, hinput, _⟩ => h text hinput

theorem not_compiles_of_unopened {f : PathFault}
    (h : i.files.locate i.folders .writing (outfileOf chosen) = .error f) {name script : String} :
    ¬i.Compiles chosen name script := by
  rintro ⟨_, _, hplace, _⟩
  rw [h] at hplace
  cases hplace

theorem not_compiles_of_refused {f : Failure} (hinput : i.IsInput chosen text)
    (h : (compile i.edition (outfileOf chosen) text).script = .error f) {name script : String} :
    ¬i.Compiles chosen name script := by
  rintro ⟨_, hinput', _, hscript⟩
  rw [← hinput.unique hinput', h] at hscript
  cases hscript

/-- A run that fails and writes nothing. -/
theorem Leaves.of_not_compiles {r : Result} (hfiles : r.files = i.files) (hexit : r.exit ≠ 0)
    (h : ∀ name script, ¬i.Compiles chosen name script) : i.Leaves chosen r where
  idle _ := hfiles
  others _ _ := by rw [hfiles]
  exit _ _ := ⟨fun hzero => absurd hzero hexit, fun ⟨name, script, hscript⟩ => absurd hscript (h name script)⟩
  script _ _ name script hscript := absurd hscript (h name script)

theorem Leaves.of_idle {r : Result} (hfiles : r.files = i.files)
    (h : isChosen chosen .version = true ∨ outfileOf chosen = "-") : i.Leaves chosen r where
  idle _ := hfiles
  others _ _ := by rw [hfiles]
  exit hversion hout := by simp [hversion, hout] at h
  script hversion hout := by simp [hversion, hout] at h

theorem Ends.leaves {r : Result} (h : i.Ends chosen r) : i.Leaves chosen r := by
  cases h with
  | version h => exact .of_idle rfl (.inl h)
  | unread _ h => exact .of_not_compiles rfl Nat.one_ne_zero fun _ _ => not_compiles_of_unread h
  | printed _ hout => exact .of_idle rfl (.inr hout)
  | unprinted _ hout => exact .of_idle rfl (.inr hout)
  | unopened _ _ _ hplace => exact .of_not_compiles rfl Nat.one_ne_zero fun _ _ => not_compiles_of_unopened hplace
  | @written text name script _ _ hversion hout hinput hplace hscript =>
    have hcompiles : i.Compiles chosen name script := ⟨text, hinput, hplace, hscript⟩
    refine ⟨fun hidle => ?_, fun other hother => ?_, fun _ _ => ⟨fun _ => ⟨name, script, hcompiles⟩, fun _ => rfl⟩,
      fun _ _ name' script' h => ?_⟩
    · simp [hversion, hout] at hidle
    · refine Files.find?_withScript_of_ne script ?_
      rintro rfl
      exact hother hplace
    · obtain ⟨rfl, rfl⟩ := hcompiles.unique h
      exact Files.find?_withScript_self ..
  | @refused text name _ _ f hversion hout hinput hplace hscript =>
    have hnot : ∀ {name script}, ¬i.Compiles chosen name script := not_compiles_of_refused hinput hscript
    refine ⟨fun hidle => ?_, fun other hother => ?_,
      fun _ _ => ⟨fun h => absurd h Nat.one_ne_zero, fun ⟨_, _, h⟩ => absurd h hnot⟩, fun _ _ _ _ h => absurd h hnot⟩
    · simp [hversion, hout] at hidle
    · refine Files.find?_emptied_of_ne ?_
      rintro rfl
      exact hother hplace

end Invocation

theorem regular_compileOptions : Regular compileOptions := by
  constructor <;> decide +kernel

section

variable {i : Invocation} {r : List (Choice Key)} {f : UsageFault}

theorem compileRun_of_misuse (h : compileOptions.parse (· == .help) i.args = .error f) :
    compileRun i = i.misused compileOptions f := by
  rw [compileRun, Invocation.withOptions, h]

theorem compileRun_of_help (h : compileOptions.parse (· == .help) i.args = .ok r) (hhelp : isChosen r .help = true) :
    compileRun i = i.printed (compileOptions.help i.name "Compile a Justfile to a shell script") := by
  simp only [compileRun, Invocation.withOptions, h, if_pos hhelp]

theorem compileRun_of_chosen (h : compileOptions.parse (· == .help) i.args = .ok r)
    (hhelp : isChosen r .help = false) : compileRun i = i.compileChosen r := by
  simp only [compileRun, Invocation.withOptions, h, hhelp, Bool.false_eq_true, if_false]

/-- The options that arguments choose are those that are read, unless help is among them. -/
theorem chosen_of_spells {chosen : List (Choice Key)} (h : compileOptions.parse (· == .help) i.args = .ok r)
    (hchosen : Spells compileOptions none i.args chosen) :
    isChosen chosen .help = isChosen r .help ∧ (isChosen r .help = false → chosen = r) := by
  obtain ⟨r', hr', ⟨more, rfl⟩, hend⟩ := parse_of_spells regular_compileOptions (· == .help) hchosen
  cases h.symm.trans hr'
  rcases hend with hany | heq
  · have hany : isChosen r .help = true := hany
    have hmore : isChosen (r ++ more) .help = (isChosen r .help || isChosen more .help) := List.any_append
    rw [hmore, hany]
    exact ⟨rfl, nofun⟩
  · rw [← heq]
    exact ⟨rfl, fun _ => rfl⟩

end

/-- A run that is to write a file, on a text that gives no script, ends with that file empty. So the file is as it
was before only if it was there and empty. All other files stay. -/
theorem refused_run_empties (i : Invocation) (chosen : List (Choice Key)) (text : String) (f : Failure)
    (hversion : isChosen chosen .version = false) (hout : outfileOf chosen ≠ "-") (hinput : i.IsInput chosen text)
    (hrefused : (compile i.edition (outfileOf chosen) text).script = .error f) :
    (i.compileChosen chosen).exit = 1 ∧
    (∀ g, i.files.locate i.folders .writing (outfileOf chosen) = .error g →
      (i.compileChosen chosen).files = i.files) ∧
    ∀ name, i.files.locate i.folders .writing (outfileOf chosen) = .ok name →
      (i.compileChosen chosen).fault = some (.refused f) ∧
      (i.compileChosen chosen).files.find? name =
        some ⟨"", ((i.files.find? name).map (·.executable)).getD false⟩ ∧
      ((i.compileChosen chosen).files.find? name = i.files.find? name ↔
        (i.files.find? name).map (·.text) = some "") ∧
      ∀ other, other ≠ name → (i.compileChosen chosen).files.find? other = i.files.find? other := by
  have hends := i.compileChosen_ends chosen
  generalize i.compileChosen chosen = r at hends ⊢
  cases hends with
  | version h => rw [hversion] at h; cases h
  | unread _ h => exact absurd hinput (h text)
  | printed _ h => exact absurd h hout
  | unprinted _ h => exact absurd h hout
  | unopened _ _ _ hplace => exact ⟨rfl, fun _ _ => rfl, fun name hname => by rw [hplace] at hname; cases hname⟩
  | written _ _ hinput' _ hscript =>
    rw [← hinput.unique hinput', hrefused] at hscript
    cases hscript
  | refused _ _ hinput' hplace hscript =>
    rw [← hinput.unique hinput', hrefused] at hscript
    cases hscript
    refine ⟨rfl, fun g hg => ?_, fun name hname => ?_⟩
    · rw [hplace] at hg
      cases hg
    rw [hplace] at hname
    cases hname
    exact ⟨rfl, Files.find?_emptied_self .., Files.find?_emptied_eq_iff, fun other h => Files.find?_emptied_of_ne h⟩

/-- A justfile that cannot be read takes the script of an earlier run with it. -/
theorem refused_run_empties_just_sh :
    let i : Invocation := ⟨"just", [], "", ⟨[("justfile", ⟨"a\n", false⟩), ("just.sh", ⟨"old\n", true⟩)]⟩, [],
      ⟨"2000-01-02", "unknown"⟩⟩
    (i.compileChosen []).files.find? "just.sh" = some ⟨"", true⟩ ∧
      (i.compileChosen []).files.find? "just.sh" ≠ i.files.find? "just.sh" := by
  intro i
  have hinput : i.IsInput [] (File.unified ⟨"a\n", false⟩) :=
    .first rfl (show justfileNames = [] ++ "justfile" :: [".justfile", "Justfile", ".Justfile"] from rfl) (by simp) rfl
  have hparse : parse (File.unified ⟨"a\n", false⟩) = .error (.unreadable 2 0) := by decide +kernel
  have hrefused := compile_of_unread i.edition "just.sh" hparse
  obtain ⟨-, -, h⟩ := refused_run_empties i [] _ _ rfl (by decide) hinput hrefused
  obtain ⟨-, hempty, -⟩ := h "just.sh" (by decide +kernel)
  have hold : i.files.find? "just.sh" ≠ some ⟨"", true⟩ := by decide +kernel
  exact ⟨hempty, fun h => hold (h.symm.trans hempty)⟩

end Justfile.Command
