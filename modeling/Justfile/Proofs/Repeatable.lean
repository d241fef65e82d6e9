import Justfile.Proofs.Clashes

/-!
# Making a script again

Making a script puts names into the table on almost every line. A second run from the table that the first
one left asks for the same names in the same order, and finds each of them where its name would be put again:
it gives the same script and changes nothing.

* `Table.put_of_find?`: to put what is there already changes nothing.
* `Steady m`: to run `m` again gives the same and leaves the table as it is, now and at any later time. There is a
  rule for each way to build a computation, and a lemma for each part of a script.
* `functions_again`: the functions of a script are those that its recipes get from the table at the end.
* `script_repeats`: the script of a program is the same when it is made again.
-/

namespace Justfile

/-- To put what is there already changes nothing, not even the order of the entries. -/
theorem Table.put_of_find? {α : Type} {t : Table α} {key : String} {value : α} (h : t.find? key = some value) :
    t.put key value = t := by
  obtain ⟨entries⟩ := t
  simp only [Table.put, Table.find?, Table.mk.injEq] at h ⊢
  induction entries with
  | nil => cases h
  | cons e rest ih =>
    rw [List.lookup_cons] at h
    by_cases hk : (key == e.1) = true
    · rw [hk] at h
      rw [Table.putIn, if_pos hk, ← Option.some.inj h]
    · rw [Bool.eq_false_iff.2 hk] at h
      rw [Table.putIn, if_neg hk, ih h]

namespace Shell

open Names

variable {α β : Type}

theorem Naming.run_of_result {m : Naming α} {t : Names} {a : α} (h : m.result t = .ok a) :
    m.run.run t = (.ok a, m.table t) :=
  Prod.ext h rfl

/-- What is said of the results of `m` holds of a run that leaves its table as it is. -/
theorem Takes.of_run {A : String → Prop} {m : Naming α} {P : Names → α → Prop} (hm : Takes A m P) {u : Names} {a : α}
    (hu : Settled u) (h : m.run.run u = (.ok a, u)) : P u a := by
  have htable : m.table u = u := congrArg Prod.snd h
  refine hm.gives u u a hu ?_ (congrArg Prod.fst h)
  rw [htable]
  exact .refl u

/-- Another run of `m`, from any settled table that has all entries the first one leaves, gives the same result
and leaves that table as it is. -/
def Steady (m : Naming α) : Prop :=
  Takes (fun _ => True) m fun u a => m.run.run u = (.ok a, u)

namespace Steady

variable {m : Naming α}

theorem pure (a : α) : Steady (Pure.pure a) := Takes.pure fun _ => rfl

theorem throw (f : Failure) : Steady (MonadExcept.throw f : Naming α) := Takes.throw f

theorem ofExcept (r : Except Failure α) : Steady (Naming.ofExcept r) := by
  refine (Takes.ofExcept r).mono fun u a ha => ?_
  rw [ha]
  rfl

/-- **A name that is known is found again where it is.** -/
theorem cleanName (name : String) : Steady (cleanName name) := by
  have htakes : Takes (fun _ => True) (Shell.cleanName name) fun u shell => u.find? shell = some name :=
    .cleanName trivial
  refine ⟨htakes.within, htakes.settled, htakes.asked, fun t u shell hu hw hshell => ?_⟩
  have hfind : u.find? shell = some name := htakes.gives t u shell hu hw hshell
  -- in a settled table the form that a name has is the first one that is free for it
  have hagain : u.shellName name = shell := hu shell name hfind
  show (Except.ok (u.shellName name), u.put (u.shellName name) name) = (Except.ok shell, u)
  rw [hagain, Table.put_of_find? hfind]

/-- **One computation after the other.** -/
theorem bind {k : α → Naming β} (hm : Steady m) (hk : ∀ a, Steady (k a)) : Steady (m >>= k) := by
  refine Takes.bind hm fun a => (hk a).mono fun u b hb ha => ?_
  rw [Naming.run_bind, ha]
  exact hb

theorem map (hm : Steady m) (g : α → β) : Steady (g <$> m) := by
  rw [map_eq_pure_bind]
  exact hm.bind fun a => .pure (g a)

/-- A computation for each member of a list. -/
theorem mapM {f : α → Naming β} {l : List α} (h : ∀ a, Steady (f a)) : Steady (l.mapM f) := by
  induction l with
  | nil => exact .pure []
  | cons a l ih =>
    rw [List.mapM_cons]
    exact (h a).bind fun b => ih.bind fun bs => .pure (b :: bs)

end Steady

mutual

/-- **An expression gets the same word again.** -/
theorem evaluate_steady : ∀ e : Expr, Steady (evaluate e)
  | .text s => by rw [evaluate]; exact .pure _
  | .var name => by rw [evaluate]; exact (Steady.cleanName _).map _
  | .sum left right => by
    rw [evaluate]
    exact (evaluate_steady left).bind fun l => (evaluate_steady right).bind fun r => .pure _
  | .path left right => by
    rw [evaluate]
    exact (evaluate_steady left).bind fun l => (evaluate_steady right).bind fun r => .pure _
  | .backtick command => by rw [evaluate]; exact .pure _
  | .call name args => by
    rw [evaluate]
    exact (evaluateAll_steady args).bind fun as => (Steady.cleanName name).bind fun n => .pure _
  | .bareCall name => by
    rw [evaluate]
    exact (Steady.cleanName name).bind fun n => .pure _
  | .cond op left right yes no => by rw [evaluate]; exact (Steady.cleanName _).map _
  | .looseCond test yes no => by rw [evaluate]; exact (Steady.cleanName _).map _
  | .stray datum => by rw [evaluate]; exact .throw _

theorem evaluateAll_steady : ∀ es : List Expr, Steady (evaluateAll es)
  | [] => by rw [evaluateAll]; exact .pure _
  | e :: rest => by
    rw [evaluateAll]
    exact (evaluate_steady e).bind fun w => (evaluateAll_steady rest).bind fun ws => .pure _

end

end Shell

open Shell Shell.Names

namespace Script

section Recipes

variable (p : Program) (r : Recipe)

theorem evaluate?_steady (e? : Option Expr) : Steady (evaluate? e?) := by
  cases e? with
  | none => exact .pure none
  | some e => exact (evaluate_steady e).map some

theorem interpolate_steady (es : List Expr) (first : Nat) : Steady (interpolate first es) := by
  induction es generalizing first with
  | nil => exact .pure []
  | cons e es ih => exact (evaluate_steady e).bind fun w => (ih (first + 1)).bind fun more => .pure _

theorem exportsOf_steady : Steady (exportsOf p r) :=
  .mapM (fun v => (Steady.cleanName v).bind fun _ => (Steady.cleanName _).bind fun _ => .pure _)

theorem argumentsOf_steady (withName : Bool) : Steady (argumentsOf p r withName) := by
  unfold argumentsOf
  split
  · exact (Steady.mapM (fun q => Steady.cleanName _)).bind fun values => .pure _
  · exact .pure _

theorem commandLine_steady (attributes : List String) (first : Nat) (l : Line) :
    Steady (commandLine p attributes r first l) :=
  (interpolate_steady _ first).bind fun _ => (exportsOf_steady p r).bind fun _ =>
    (argumentsOf_steady p r true).bind fun _ => .pure _

theorem commandLines_steady (attributes : List String) (ls : List Line) (first : Nat) :
    Steady (commandLines p attributes r first ls) := by
  induction ls generalizing first with
  | nil => exact .pure []
  | cons l ls ih =>
    rw [commandLines]
    split
    · exact ih first
    · exact (commandLine_steady p r attributes first l).bind fun c => (ih _).bind fun more => .pure _

theorem bodyFile_steady (attributes : List String) : Steady (bodyFile p attributes r) :=
  (interpolate_steady _ 1).bind fun _ => (exportsOf_steady p r).bind fun _ =>
    (argumentsOf_steady p r false).bind fun _ => .pure _

theorem bodyOf_steady (attributes : List String) : Steady (bodyOf p attributes r) := by
  unfold bodyOf
  split
  · exact (bodyFile_steady p r attributes).map Body.file
  · exact (commandLines_steady p r attributes r.body 1).map Body.commands

theorem slotsOf_steady (qs : List Parameter) (place : Nat) : Steady (slotsOf place qs) := by
  induction qs generalizing place with
  | nil => exact .pure []
  | cons q qs ih =>
    refine (Steady.cleanName _).bind fun name => (evaluate?_steady q.default).bind fun default => ?_
    exact (ih (place + 1)).bind fun more => .pure _

theorem remainderOf_steady : Steady (remainderOf r) := by
  unfold remainderOf
  cases r.variadic with
  | none => exact .pure none
  | some v =>
    exact (Steady.cleanName _).bind fun name => (evaluate?_steady v.param.default).bind fun default => .pure _

theorem intakeOf_steady : Steady (intakeOf r) := by
  unfold intakeOf
  split
  · exact .pure none
  · refine (Steady.ofExcept (leastOf r)).bind fun least => (slotsOf_steady r.parameters 1).bind fun slots => ?_
    exact (remainderOf_steady r).bind fun remainder => .pure _

theorem beforeRun_steady (d : Dependency) : Steady (beforeRun r d) :=
  (evaluateAll_steady d.args).bind fun _ => (Steady.cleanName _).bind fun _ =>
    (Steady.cleanName _).bind fun _ => (Steady.cleanName _).bind fun _ => .pure _

theorem afterRuns_steady (ds : List Dependency) (seen : List String) : Steady (afterRuns seen ds) := by
  induction ds generalizing seen with
  | nil => exact .pure []
  | cons d ds ih =>
    refine (evaluateAll_steady d.args).bind fun args => ?_
    -- a name that was seen before is left out, but its arguments are evaluated
    split
    · exact ih seen
    · refine (Steady.cleanName _).bind fun force => (Steady.cleanName _).bind fun function => ?_
      exact (ih (d.name :: seen)).bind fun more => .pure _

/-- The function of a recipe is the same again. -/
theorem recipeFunction_steady (attributes : List String) : Steady (recipeFunction p attributes r) := by
  refine (bodyOf_steady p r attributes).bind fun body => (Steady.cleanName _).bind fun name => ?_
  refine (Steady.cleanName _).bind fun hasRun => (Steady.cleanName _).bind fun force => ?_
  refine (intakeOf_steady r).bind fun intake => (Steady.mapM (beforeRun_steady r)).bind fun before => ?_
  exact (afterRuns_steady r.after []).bind fun after => .pure _

/-- **The body of a function is what its recipe gets for one.** -/
theorem body_of_recipeFunction {attributes : List String} {u : Names} (hu : Settled u) {f : RecipeFunction}
    (h : (recipeFunction p attributes r).run.run u = (.ok f, u)) :
    f.recipe = r.name ∧ (bodyOf p attributes r).run.run u = (.ok f.body, u) := by
  have htakes : Takes (fun _ => True) (recipeFunction p attributes r) fun u f =>
      f.recipe = r.name ∧ (bodyOf p attributes r).run.run u = (.ok f.body, u) := by
    refine Takes.bind (bodyOf_steady p r attributes) fun body => Takes.bind (Steady.cleanName _) fun name => ?_
    refine Takes.bind (Steady.cleanName _) fun hasRun => Takes.bind (Steady.cleanName _) fun force => ?_
    refine Takes.bind (intakeOf_steady r) fun intake => Takes.bind (Steady.mapM (beforeRun_steady r)) fun before => ?_
    exact Takes.bind (afterRuns_steady r.after []) fun after => .pure fun u _ _ _ _ _ _ hbody => ⟨rfl, hbody⟩
  exact htakes.of_run hu h

end Recipes

section Scripts

variable (p : Program)

theorem itemEntries_steady (i : Item) : Steady (itemEntries p i) := by
  unfold itemEntries
  cases i.declaration with
  | recipe r => exact (recipeFunction_steady p r i.attributes).bind fun f => .pure _
  | comment s => exact .pure _
  | «alias» => exact (Steady.cleanName _).bind fun _ => (Steady.cleanName _).bind fun _ => .pure _
  | _ => exact .pure _

theorem dispatcherOf_steady (recipe : String) (functions : Table String) :
    Steady (dispatcherOf recipe functions) := by
  have hbranch : ∀ choice : String × String, Steady (branchOf choice.1 choice.2) :=
    fun choice => (Steady.cleanName _).bind fun function => .pure _
  exact (Steady.mapM hbranch).bind fun branches => (Steady.cleanName _).bind fun name => .pure _

theorem entriesOf_steady : Steady (entriesOf p) := by
  refine (Steady.mapM (itemEntries_steady p)).bind fun entries => ?_
  exact Steady.bind (.mapM fun x => dispatcherOf_steady x.1 x.2) fun dispatchers => .pure _

theorem variableOf_steady (name : String) : Steady (variableOf name) :=
  (Steady.cleanName _).bind fun _ => .pure _

theorem caseOf_steady (target : String) : Steady (caseOf p target) :=
  (Steady.cleanName _).bind fun _ => .pure _

theorem defaultOf_steady : Steady (defaultOf p) := by
  unfold defaultOf
  split
  · exact .pure none
  · exact (Steady.cleanName _).bind fun function => .pure _

theorem assignmentOf_steady (name : String) (value : Expr) : Steady (assignmentOf name value) :=
  (Steady.cleanName _).bind fun _ => (evaluate_steady value).bind fun _ => .pure _

/-- **A program gets the same script again.** -/
theorem ofProgram_steady (edition : Edition) (outfile justfile : String) :
    Steady (ofProgram edition outfile justfile p) := by
  unfold ofProgram
  refine (Steady.ofExcept _).bind fun banner => ?_
  refine Steady.bind (.mapM fun x => assignmentOf_steady x.1 x.2) fun assignments => ?_
  refine (entriesOf_steady p).bind fun entries => (Steady.ofExcept _).bind fun sortedList => ?_
  refine (Steady.ofExcept _).bind fun list => (Steady.mapM variableOf_steady).bind fun sortedVariables => ?_
  refine (Steady.mapM variableOf_steady).bind fun declared => (Steady.mapM (caseOf_steady p)).bind fun cases => ?_
  exact (defaultOf_steady p).bind fun default => .pure _

/-- The function of a recipe, if an entry is one. -/
def Entry.function? : Entry → Option RecipeFunction
  | .recipe f => some f
  | _ => none

/-- What holds item by item holds of all recipes. -/
theorem forall₂_flatten {R : List String × Recipe → RecipeFunction → Prop} {items : List Item}
    {rows : List (List Entry)} (h : List.Forall₂ (fun i row =>
      List.Forall₂ R (recipesIn [i]) (row.filterMap Entry.function?)) items rows) :
    List.Forall₂ R (recipesIn items) (rows.flatten.filterMap Entry.function?) := by
  induction h with
  | nil => exact .nil
  | @cons i row items rows hrow _ ih =>
    have hsplit : recipesIn (i :: items) = recipesIn [i] ++ recipesIn items := by
      unfold recipesIn
      rw [← List.filterMap_append, List.singleton_append]
    rw [hsplit, List.flatten_cons, List.filterMap_append]
    exact List.rel_append hrow ih

theorem itemEntries_again (i : Item) : Takes (fun _ => True) (itemEntries p i) fun u row =>
    List.Forall₂ (fun x f => (recipeFunction p x.1 x.2).run.run u = (.ok f, u)) (recipesIn [i])
      (row.filterMap Entry.function?) := by
  obtain ⟨attributes, declaration⟩ := i
  unfold itemEntries
  cases declaration with
  | recipe r => exact Takes.bind (recipeFunction_steady p r attributes) fun f => .pure fun u hf => .cons hf .nil
  | comment s => exact .pure fun _ => .nil
  | «alias» name target =>
    exact Takes.bind (Steady.cleanName _) fun _ => Takes.bind (Steady.cleanName _) fun _ => .pure fun _ _ _ => .nil
  | _ => exact .pure fun _ => .nil

/-- The functions of recipes are what their recipes get in every later table. -/
theorem entriesOf_again : Takes (fun _ => True) (entriesOf p) fun u entries =>
    List.Forall₂ (fun x f => (recipeFunction p x.1 x.2).run.run u = (.ok f, u)) (recipesIn p.items)
      (entries.filterMap Entry.function?) := by
  have hdispatcher (x : String × Table String) : Takes (fun _ => True) (dispatcherOf x.1 x.2) fun _ e =>
      e.function? = none :=
    Takes.bind (Steady.mapM fun choice => (Steady.cleanName _).bind fun _ => .pure _) fun _ =>
      Takes.bind (Steady.cleanName _) fun _ => .pure fun _ _ _ => rfl
  unfold entriesOf
  refine (Takes.mapM fun i _ => itemEntries_again p i).bind fun rows => ?_
  refine (Takes.mapM fun x _ => hdispatcher x).bind fun ds => .pure fun u hds hrows => ?_
  have hnone : ds.filterMap Entry.function? = [] := by
    rw [List.filterMap_eq_nil_iff]
    intro d hd
    obtain ⟨x, -, hx⟩ := exists_left_of_mem hds d hd
    exact hx
  rw [List.filterMap_append, hnone, List.append_nil]
  exact forall₂_flatten hrows

/-- **The functions of a script are those that its recipes get from the table at the end.** -/
theorem functions_again {edition : Edition} {outfile justfile : String} {t : Names} {s : Script} (ht : Settled t)
    (h : (ofProgram edition outfile justfile p).result t = .ok s) :
    List.Forall₂ (fun x f => (recipeFunction p x.1 x.2).run.run ((ofProgram edition outfile justfile p).table t) =
      (.ok f, (ofProgram edition outfile justfile p).table t)) (recipesIn p.items) s.functions := by
  have htakes : Takes (fun _ => True) (ofProgram edition outfile justfile p) fun u s =>
      List.Forall₂ (fun x f => (recipeFunction p x.1 x.2).run.run u = (.ok f, u)) (recipesIn p.items) s.functions := by
    unfold ofProgram
    refine (Takes.ofExcept _).bind fun banner => ?_
    refine Takes.bind (Steady.mapM fun x => assignmentOf_steady x.1 x.2) fun assignments => ?_
    refine (entriesOf_again p).bind fun entries => (Takes.ofExcept _).bind fun sortedList => ?_
    refine (Takes.ofExcept _).bind fun list => Takes.bind (Steady.mapM variableOf_steady) fun sortedVariables => ?_
    refine Takes.bind (Steady.mapM variableOf_steady) fun declared => ?_
    refine Takes.bind (Steady.mapM (caseOf_steady p)) fun cases => Takes.bind (defaultOf_steady p) fun default => ?_
    exact .pure fun u _ _ _ _ _ _ hentries _ _ => hentries
  exact htakes.gives t _ s (htakes.settled t ht) (.refl _) h

end Scripts

end Script

/-- The names that a program takes make a settled table, whatever its items are. -/
theorem Program.settled_ofItems {items : List Item} {p : Program}
    (h : (Program.ofItems items).result .empty = .ok p) : Settled ((Program.ofItems items).table .empty) := by
  rw [(Program.assembled_of_ofItems h).table]
  have htakes : Takes (fun _ => True) (Helpers.ofItems items) _ :=
    Helpers.ofItems_takes fun _ _ _ _ _ _ _ _ => trivial
  exact htakes.settled .empty settled_empty

/-- **Scripts can be made again.** If items make a program and the program a script, then to make the script
again, from the table of names that was left, gives the same script and leaves the table as it is. The program
is only read. -/
theorem script_repeats {edition : Edition} {outfile text : String} {items : List Item} {p : Program} {s : Script}
    {t u : Names} (hprogram : (Program.ofItems items).run.run .empty = (.ok p, t))
    (hscript : (Script.ofProgram edition outfile text p).run.run t = (.ok s, u)) :
    (Script.ofProgram edition outfile text p).run.run u = (.ok s, u) := by
  have hp : (Program.ofItems items).result .empty = .ok p := congrArg Prod.fst hprogram
  have ht : (Program.ofItems items).table .empty = t := congrArg Prod.snd hprogram
  have hs : (Script.ofProgram edition outfile text p).result t = .ok s := congrArg Prod.fst hscript
  have hu : (Script.ofProgram edition outfile text p).table t = u := congrArg Prod.snd hscript
  have hsteady := Script.ofProgram_steady p edition outfile text
  have hsettled : Settled u := by
    rw [← hu]
    refine hsteady.settled t ?_
    rw [← ht]
    exact Program.settled_ofItems hp
  refine hsteady.gives t u s hsettled ?_ hs
  rw [hu]
  exact .refl u

/-- Two variables that differ in a dash get the same names again. The first run had to look for the second name. -/
theorem script_repeats_taken :
    ∃ p s t u, (Program.ofItems takenItems).run.run .empty = (.ok p, t) ∧
      (Script.ofProgram ⟨"2000-01-02", "unknown"⟩ "just.sh" takenText p).run.run t = (.ok s, u) ∧
      t.find? "VAR_a_b_2" = none ∧ s.assigned = ["VAR_a_b", "VAR_a_b_2", "VAR_sha256_file"] ∧
      (Script.ofProgram ⟨"2000-01-02", "unknown"⟩ "just.sh" takenText p).run.run u = (.ok s, u) := by
  have hparse : parse takenText = .ok takenItems := by decide +kernel
  have hknown : ∀ e ∈ openExprNodes takenItems, ∀ g ∈ e.function?, (Builtin.find? g).isSome = true := by
    decide +kernel
  have hnew : ((Program.ofItems takenItems).table .empty).find? "VAR_a_b_2" = none := by decide +kernel
  have hassigned : Script.assignedNames? takenItems = some ["VAR_a_b", "VAR_a_b_2", "VAR_sha256_file"] := by
    decide +kernel
  obtain ⟨script, hscript⟩ := compile_succeeds isDate_sample hparse rfl hknown rfl
  obtain ⟨p, s, hp, hs, -, -⟩ := made_of_compile hparse hscript
  rw [Script.assignedNames?_of_ofProgram hp hs, Option.some.injEq] at hassigned
  have hprogram := Naming.run_of_result hp
  have hfirst := Naming.run_of_result hs
  exact ⟨p, s, _, _, hprogram, hfirst, hnew, hassigned, script_repeats hprogram hfirst⟩

end Justfile
