import Justfile.Proofs.Takes

/-!
# The parts of a script

What stands in a script is what its program says, under the names of the table at the end. The views here
leave out the fixed text: the commands of a body, the variables that a function reads and writes, and the
functions that a script defines and calls.

* `Word.parts`: the words that a word is put together from. `IsWord.parts`: these are the words of what
  stands in its expression.
* `RecipeFunction.Of`: the function of a recipe, part by part.
* `Script.Of`: the script of a program, part by part. `ofProgram_takes`: this is what a program gets.
-/

namespace Justfile

open Shell Shell.Names

namespace Shell

namespace Word

mutual

/-- The words that a word is put together from, and the arguments of its calls. -/
def parts : Word → List Word
  | .append left right => parts left ++ parts right
  | .slash => []
  | .call name args => .call name args :: partsAll args
  | .valueOf name => [.valueOf name]
  | .test name => [.test name]
  | .literal s => [.literal s]
  | .command s => [.command s]
  | .self => [.self]
  | .selfHere => [.selfHere]

/-- The parts of words. -/
def partsAll : List Word → List Word
  | [] => []
  | w :: rest => parts w ++ partsAll rest

end

/-- The variables whose values a word reads. -/
def reads (w : Word) : List String :=
  w.parts.filterMap fun
    | .valueOf name => some name
    | _ => none

theorem reads_append (left right : Word) : (append left right).reads = left.reads ++ right.reads :=
  List.filterMap_append

theorem reads_call (name : String) (args : List Word) : (call name args).reads = args.flatMap reads := by
  induction args with
  | nil => rfl
  | cons w ws ih =>
    have hsplit : (call name (w :: ws)).reads = w.reads ++ (call name ws).reads := by
      simp only [reads, parts, partsAll, List.filterMap_cons, List.filterMap_append]
    rw [hsplit, ih, List.flatMap_cons]

/-- The functions that a word calls with arguments. -/
def calls (w : Word) : List String :=
  w.parts.filterMap fun
    | .call name _ => some name
    | _ => none

end Word

theorem ok_of_bind {α β : Type} {x : Except Failure α} {f : α → Except Failure β} {b : β}
    (h : (x >>= f) = .ok b) : ∃ a, x = .ok a ∧ f a = .ok b := by
  cases x with
  | error e => cases h
  | ok a => exact ⟨a, rfl, h⟩

variable {σ : String → String}

/-- A word that has no parts but itself. -/
theorem parts_of_self {e : Expr} {w : Word} (h : wordOf σ e = .ok w) (hw : w.parts = [w]) :
    ∀ w' ∈ w.parts, ∃ e' ∈ e.nodes, wordOf σ e' = .ok w' ∧ namesIn e' ⊆ namesIn e := by
  intro w' hw'
  rw [hw, List.mem_singleton] at hw'
  rw [hw']
  exact ⟨e, e.self_mem_nodes, h, fun _ hn => hn⟩

/-- The parts of two operands. -/
theorem parts_of_operands {left right e : Expr} {l r : Word}
    (hl : ∀ w' ∈ l.parts, ∃ e' ∈ left.nodes, wordOf σ e' = .ok w' ∧ namesIn e' ⊆ namesIn left)
    (hr : ∀ w' ∈ r.parts, ∃ e' ∈ right.nodes, wordOf σ e' = .ok w' ∧ namesIn e' ⊆ namesIn right)
    (hnodes : e.nodes = e :: (left.nodes ++ right.nodes)) (hnames : namesIn e = namesIn left ++ namesIn right) :
    ∀ w' ∈ l.parts ++ r.parts, ∃ e' ∈ e.nodes, wordOf σ e' = .ok w' ∧ namesIn e' ⊆ namesIn e := by
  rw [hnodes, hnames]
  intro w' hw'
  rcases List.mem_append.1 hw' with hw' | hw'
  · obtain ⟨e', he', hword, hsub⟩ := hl w' hw'
    exact ⟨e', by simp [he'], hword, fun n hn => List.mem_append_left _ (hsub hn)⟩
  · obtain ⟨e', he', hword, hsub⟩ := hr w' hw'
    exact ⟨e', by simp [he'], hword, fun n hn => List.mem_append_right _ (hsub hn)⟩

mutual

/-- **The parts of a word are the words of what stands in its expression.** -/
theorem parts_of_wordOf : ∀ {e : Expr} {w : Word}, wordOf σ e = .ok w →
    ∀ w' ∈ w.parts, ∃ e' ∈ e.nodes, wordOf σ e' = .ok w' ∧ namesIn e' ⊆ namesIn e
  | .text _, w, h => by
    refine parts_of_self h ?_
    rw [wordOf] at h
    cases h
    rfl
  | .var _, w, h => by
    refine parts_of_self h ?_
    rw [wordOf] at h
    cases h
    rfl
  | .backtick _, w, h => by
    refine parts_of_self h ?_
    rw [wordOf] at h
    cases h
    rfl
  | .bareCall _, w, h => by
    refine parts_of_self h ?_
    rw [wordOf] at h
    cases h
    rfl
  | .cond _ _ _ _ _, w, h => by
    refine parts_of_self h ?_
    rw [wordOf] at h
    cases h
    rfl
  | .looseCond _ _ _, w, h => by
    refine parts_of_self h ?_
    rw [wordOf] at h
    cases h
    rfl
  | .stray _, w, h => by
    rw [wordOf] at h
    cases h
  | .sum left right, w, h => by
    rw [wordOf] at h
    obtain ⟨l, hl, h⟩ := ok_of_bind h
    obtain ⟨r, hr, h⟩ := ok_of_bind h
    cases h
    exact parts_of_operands (parts_of_wordOf hl) (parts_of_wordOf hr) (by rw [Expr.nodes]) (by rw [namesIn])
  | .path left right, w, h => by
    rw [wordOf] at h
    obtain ⟨l, hl, h⟩ := ok_of_bind h
    obtain ⟨r, hr, h⟩ := ok_of_bind h
    cases h
    -- the slash between the operands has no parts
    have hparts := parts_of_operands (e := .path left right) (parts_of_wordOf hl) (parts_of_wordOf hr)
      (by rw [Expr.nodes]) (by rw [namesIn])
    exact hparts
  | .call name args, w, h => by
    have hself := h
    rw [wordOf] at h
    obtain ⟨ws, hws, h⟩ := ok_of_bind h
    cases h
    intro w' hw'
    rw [Word.parts, List.mem_cons] at hw'
    rcases hw' with rfl | hw'
    · exact ⟨_, Expr.self_mem_nodes _, hself, fun _ hn => hn⟩
    · obtain ⟨e', he', hword, hsub⟩ := parts_of_wordsOf hws w' hw'
      refine ⟨e', by simp [Expr.nodes, he'], hword, ?_⟩
      rw [namesIn]
      exact fun n hn => List.mem_append_left _ (hsub hn)

theorem parts_of_wordsOf : ∀ {es : List Expr} {ws : List Word}, wordsOf σ es = .ok ws →
    ∀ w' ∈ Word.partsAll ws, ∃ e' ∈ Expr.nodesAll es, wordOf σ e' = .ok w' ∧ namesIn e' ⊆ namesInAll es
  | [], ws, h => by
    rw [wordsOf] at h
    cases h
    exact fun w' hw' => absurd hw' List.not_mem_nil
  | e :: rest, ws, h => by
    rw [wordsOf] at h
    obtain ⟨w, hw, h⟩ := ok_of_bind h
    obtain ⟨ws', hws, h⟩ := ok_of_bind h
    cases h
    rw [namesInAll]
    intro w' hw'
    rcases List.mem_append.1 hw' with hw' | hw'
    · obtain ⟨e', he', hword, hsub⟩ := parts_of_wordOf hw w' hw'
      exact ⟨e', by simp [Expr.nodesAll, he'], hword, fun n hn => List.mem_append_left _ (hsub hn)⟩
    · obtain ⟨e', he', hword, hsub⟩ := parts_of_wordsOf hws w' hw'
      exact ⟨e', by simp [Expr.nodesAll, he'], hword, fun n hn => List.mem_append_right _ (hsub hn)⟩

end

theorem wordOf_eq_valueOf {e : Expr} {v : String} (h : wordOf σ e = .ok (.valueOf v)) :
    ∃ name, e = .var name ∧ v = σ ("VAR_" ++ name) := by
  cases e with
  | var name =>
    rw [wordOf] at h
    cases h
    exact ⟨name, rfl, rfl⟩
  | sum left right | path left right =>
    rw [wordOf] at h
    obtain ⟨_, -, h⟩ := ok_of_bind h
    obtain ⟨_, -, h⟩ := ok_of_bind h
    cases h
  | call name args =>
    rw [wordOf] at h
    obtain ⟨_, -, h⟩ := ok_of_bind h
    cases h
  | _ =>
    rw [wordOf] at h
    cases h

theorem wordOf_eq_call {e : Expr} {f : String} {args : List Word} (h : wordOf σ e = .ok (.call f args)) :
    ∃ name, e.function? = some name ∧ f = σ name ∧ name ∈ namesIn e := by
  cases e with
  | call name args =>
    rw [wordOf] at h
    obtain ⟨_, -, h⟩ := ok_of_bind h
    cases h
    exact ⟨name, rfl, rfl, by simp [namesIn]⟩
  | bareCall name =>
    rw [wordOf] at h
    cases h
    exact ⟨name, rfl, rfl, by simp [namesIn]⟩
  | sum left right | path left right =>
    rw [wordOf] at h
    obtain ⟨_, -, h⟩ := ok_of_bind h
    obtain ⟨_, -, h⟩ := ok_of_bind h
    cases h
  | _ =>
    rw [wordOf] at h
    cases h

namespace IsWord

variable {u : Names} {e : Expr} {w : Word}

theorem parts (h : IsWord u e w) {w' : Word} (hw' : w' ∈ w.parts) : ∃ e' ∈ e.nodes, IsWord u e' w' := by
  obtain ⟨e', he', hword, hsub⟩ := parts_of_wordOf h.word w' hw'
  exact ⟨e', he', hword, fun n hn => h.known n (hsub hn)⟩

/-- A word reads the variables of its expression. -/
theorem reads (h : IsWord u e w) {v : String} (hv : v ∈ w.reads) :
    ∃ name, .var name ∈ e.nodes ∧ v = u.shellName ("VAR_" ++ name) := by
  obtain ⟨w', hw', hsome⟩ := List.mem_filterMap.1 hv
  cases w' with
  | valueOf v' =>
    cases hsome
    obtain ⟨e', he', hword⟩ := h.parts hw'
    obtain ⟨name, rfl, rfl⟩ := wordOf_eq_valueOf hword.word
    exact ⟨name, he', rfl⟩
  | _ => cases hsome

/-- A word calls the functions of its expression. -/
theorem calls (h : IsWord u e w) {f : String} (hf : f ∈ w.calls) :
    ∃ e' ∈ e.nodes, ∃ name, e'.function? = some name ∧ f = u.shellName name ∧ Knows u name := by
  obtain ⟨w', hw', hsome⟩ := List.mem_filterMap.1 hf
  cases w' with
  | call f' args =>
    cases hsome
    obtain ⟨e', he', hword⟩ := h.parts hw'
    obtain ⟨name, hname, rfl, hmem⟩ := wordOf_eq_call hword.word
    exact ⟨e', he', name, hname, rfl, hword.known name hmem⟩
  | _ => cases hsome

end IsWord

end Shell

/-- The words of a conditional's function. -/
def TestFunction.words (f : TestFunction) : List Word :=
  [f.left, f.right, f.yes, f.no]

/-- The words of a conditional's function are words of what stands in the conditional. -/
theorem TestFunction.Of.words {u : Names} {e : Expr} {f : TestFunction} (h : f.Of u e) :
    ∀ w ∈ f.words, ∃ e' ∈ e.nodes, IsWord u e' w := by
  obtain ⟨hname, hleft, hright, hyes, hno⟩ := h
  simp only [TestFunction.words, List.forall_mem_cons]
  refine ⟨⟨_, ?_, hleft⟩, ⟨_, ?_, hright⟩, ⟨_, ?_, hyes⟩, ⟨_, ?_, hno⟩, fun w hw => absurd hw List.not_mem_nil⟩
  · simp [Expr.nodes, Expr.self_mem_nodes]
  · simp [Expr.nodes, Expr.self_mem_nodes]
  · simp [Expr.nodes, Expr.self_mem_nodes]
  · simp [Expr.nodes, Expr.self_mem_nodes]

section Pairs

variable {α β : Type} {R : α → β → Prop} {as : List α} {bs : List β}

theorem exists_left_of_mem (h : List.Forall₂ R as bs) : ∀ b ∈ bs, ∃ a ∈ as, R a b := by
  induction h with
  | nil => exact fun b hb => absurd hb List.not_mem_nil
  | cons hab _ ih =>
    intro b hb
    rcases List.mem_cons.1 hb with rfl | hb
    · exact ⟨_, List.mem_cons_self, hab⟩
    · obtain ⟨a, ha, hr⟩ := ih b hb
      exact ⟨a, List.mem_cons_of_mem _ ha, hr⟩

theorem exists_right_of_mem (h : List.Forall₂ R as bs) : ∀ a ∈ as, ∃ b ∈ bs, R a b :=
  exists_left_of_mem h.flip

end Pairs

section Exprs

variable {r : Recipe} {e : Expr}

theorem mem_exprs_of_default {q : Param} (hq : q ∈ r.params) (he : q.base.default = some e) : e ∈ r.exprs := by
  refine List.mem_append_left _ (List.mem_append_left _ (List.mem_filterMap.2 ⟨q, hq, he⟩))

theorem mem_exprs_of_args {d : Dependency} (hd : d ∈ r.before ++ r.after) (he : e ∈ d.args) : e ∈ r.exprs :=
  List.mem_append_left _ (List.mem_append_right _ (List.mem_flatMap.2 ⟨d, hd, he⟩))

theorem mem_exprs_of_line {l : Line} (hl : l ∈ r.body) (he : e ∈ Script.interpolationsOf l.parts) :
    e ∈ r.exprs :=
  List.mem_append_right _ (List.mem_flatMap.2 ⟨l, hl, he⟩)

end Exprs

namespace Script

/-- A command that a body runs: the values set before it, its words, its environment and the arguments
passed on to it. -/
structure Step where
  interpolations : List Interpolation
  words : List Word
  exports : List Export
  arguments : Arguments

/-- The commands of a body. -/
def Body.steps : Body → List Step
  | .commands ls => ls.map fun l => ⟨l.interpolations, l.command, l.exports, l.arguments⟩
  | .file f => [⟨f.interpolations, f.content, f.exports, f.arguments⟩]

/-- What a command reads for its words, environment and arguments. -/
def Step.reads (s : Step) : List String :=
  s.words.flatMap Word.reads ++ s.exports.map (·.value) ++ s.arguments.values

namespace Intake

/-- The variables that parameters are taken into. -/
def writes (i : Intake) : List String :=
  i.slots.map (·.name) ++ (i.remainder.map (·.name)).toList

/-- The words of defaults. -/
def defaults (i : Intake) : List Word :=
  i.slots.filterMap (·.default) ++ (i.remainder.bind (·.default)).toList

end Intake

namespace RecipeFunction

/-- The variables that the function's arguments are assigned to. -/
def writes (f : RecipeFunction) : List String :=
  f.intake.elim [] Intake.writes

/-- The words of defaults. -/
def defaults (f : RecipeFunction) : List Word :=
  f.intake.elim [] Intake.defaults

/-- The words that stand for expressions: defaults, arguments of dependencies, interpolated values. -/
def values (f : RecipeFunction) : List Word :=
  f.defaults ++ (f.before ++ f.after).flatMap (·.call.args) ++
    f.body.steps.flatMap fun s => s.interpolations.map (·.value)

/-- The variables for interpolated values. -/
def interpolated (f : RecipeFunction) : List String :=
  f.body.steps.flatMap fun s => s.interpolations.map fun i => interpolationName i.index

/-- The variables that the function reads. -/
def reads (f : RecipeFunction) : List String :=
  f.values.flatMap Word.reads ++ f.body.steps.flatMap Step.reads

/-- The functions that the function calls for its dependencies. -/
def calls (f : RecipeFunction) : List String :=
  (f.before ++ f.after).map (·.call.function)

end RecipeFunction

/-- A command of the recipe `r`: its values are those of expressions of `r`, its words read these values
only, its environment has the exported variables, and its arguments are parameters. -/
structure Step.Of (u : Names) (p : Program) (r : Recipe) (s : Step) : Prop where
  interpolations : ∀ i ∈ s.interpolations, ∃ e ∈ r.exprs, IsWord u e i.value
  words : ∀ w ∈ s.words, ∀ v ∈ w.reads, v ∈ s.interpolations.map fun i => interpolationName i.index
  exports : List.Forall₂ (fun v e => u.find? e.name = some v ∧ u.find? e.value = some ("VAR_" ++ v))
    (exportNames p r) s.exports
  arguments : ∀ v ∈ s.arguments.values, ∃ q ∈ r.parameters, u.find? v = some ("VAR_" ++ q.name)

/-- The call of a dependency. -/
structure Run.Of (u : Names) (d : Dependency) (run : Run) : Prop where
  force : u.find? run.force = some ("FORCE_" ++ d.name)
  function : u.find? run.call.function = some ("FUN_" ++ d.name)
  args : List.Forall₂ (IsWord u) d.args run.call.args

/-- The function of a recipe. -/
structure RecipeFunction.Of (u : Names) (p : Program) (attributes : List String) (r : Recipe)
    (f : RecipeFunction) : Prop where
  name : u.find? f.name = some ("FUN_" ++ Platform.functionName r.name (Platform.ofAttributes attributes))
  hasRun : u.find? f.hasRun = some ("HAS_RUN_" ++ r.name)
  force : u.find? f.force = some ("FORCE_" ++ r.name)
  writes : List.Forall₂ (fun q v => u.find? v = some ("VAR_" ++ q.base.name)) r.params f.writes
  defaults : ∀ w ∈ f.defaults, ∃ e ∈ r.exprs, IsWord u e w
  before : List.Forall₂ (Run.Of u) r.before f.before
  after : ∀ run ∈ f.after, ∃ d ∈ r.after, Run.Of u d run
  steps : ∀ s ∈ f.body.steps, s.Of u p r

/-- Every call of a dependency is for one of the recipe's dependencies. -/
theorem RecipeFunction.Of.run {u : Names} {p : Program} {attributes : List String} {r : Recipe}
    {f : RecipeFunction} (h : f.Of u p attributes r) {run : Run} (hrun : run ∈ f.before ++ f.after) :
    ∃ d ∈ r.before ++ r.after, run.Of u d := by
  rcases List.mem_append.1 hrun with hrun | hrun
  · obtain ⟨d, hd, hof⟩ := exists_left_of_mem h.before run hrun
    exact ⟨d, List.mem_append_left _ hd, hof⟩
  · obtain ⟨d, hd, hof⟩ := h.after run hrun
    exact ⟨d, List.mem_append_right _ hd, hof⟩

/-- The words of a function that stand for expressions are words of its recipe. -/
theorem RecipeFunction.Of.values {u : Names} {p : Program} {attributes : List String} {r : Recipe}
    {f : RecipeFunction} (h : f.Of u p attributes r) : ∀ w ∈ f.values, ∃ e ∈ r.exprs, IsWord u e w := by
  intro w hw
  unfold RecipeFunction.values at hw
  rw [List.mem_append, List.mem_append] at hw
  rcases hw with (hw | hw) | hw
  · exact h.defaults w hw
  · obtain ⟨run, hrun, hw⟩ := List.mem_flatMap.1 hw
    obtain ⟨d, hd, hof⟩ := h.run hrun
    obtain ⟨e, he, hword⟩ := exists_left_of_mem hof.args w hw
    exact ⟨e, mem_exprs_of_args hd he, hword⟩
  · obtain ⟨step, hstep, hw⟩ := List.mem_flatMap.1 hw
    obtain ⟨i, hi, rfl⟩ := List.mem_map.1 hw
    exact (h.steps step hstep).interpolations i hi

section Steps

variable {A : String → Prop} {p : Program} {r : Recipe}

/-- The interpolated values are those of the expressions and have the numbers from `first` on. -/
theorem interpolate_takes {es : List Expr} {P : Expr → Names → Word → Prop}
    (h : ∀ e ∈ es, Takes A (evaluate e) (P e)) (first : Nat) :
    Takes A (interpolate first es) fun u is => List.Forall₂ (fun e i => P e u i.value) es is ∧
      is.map (·.index) = List.range' first es.length := by
  induction es generalizing first with
  | nil => exact .pure fun _ => ⟨.nil, rfl⟩
  | cons e es ih =>
    rw [List.forall_mem_cons] at h
    refine h.1.bind fun w => (ih h.2 (first + 1)).bind fun more => .pure fun u hmore hw => ?_
    refine ⟨.cons hw hmore.1, ?_⟩
    rw [List.map_cons, hmore.2, List.length_cons, List.range'_succ]

theorem exportsOf_takes (hint : ∀ n, Internal n → A n) (hexports : ∀ v ∈ exportNames p r, A v) :
    Takes A (exportsOf p r) fun u es => List.Forall₂
      (fun v e => u.find? e.name = some v ∧ u.find? e.value = some ("VAR_" ++ v)) (exportNames p r) es := by
  refine .mapM fun v hv => ?_
  refine (Takes.cleanName (hexports v hv)).bind fun name => ?_
  exact (Takes.cleanName (hint _ (.ofVariable v))).bind fun value => .pure fun u hvalue hname => ⟨hname, hvalue⟩

theorem argumentsOf_takes (hint : ∀ n, Internal n → A n) (withName : Bool) :
    Takes A (argumentsOf p r withName) fun u a =>
      ∀ v ∈ a.values, ∃ q ∈ r.parameters, u.find? v = some ("VAR_" ++ q.name) := by
  unfold argumentsOf
  split
  · have hvalues : Takes A (r.parameters.mapM fun q => cleanVariable q.name) fun u vs =>
        List.Forall₂ (fun q v => u.find? v = some ("VAR_" ++ q.name)) r.parameters vs :=
      .mapM fun q _ => .cleanName (hint _ (.ofVariable q.name))
    exact hvalues.bind fun vs => .pure fun u hvs => exists_left_of_mem hvs
  · exact .pure fun u v hv => absurd hv List.not_mem_nil

/-- The words of a line read the interpolated values that have its numbers. -/
theorem reads_pieceWords (parts : List Fragment) (first : Nat) : ∀ w ∈ pieceWords first parts, ∀ v ∈ w.reads,
    v ∈ (List.range' first (interpolationsOf parts).length).map interpolationName := by
  induction parts generalizing first with
  | nil => exact fun w hw => absurd hw List.not_mem_nil
  | cons part parts ih =>
    intro w hw v hv
    cases part with
    | text s =>
      rcases List.mem_cons.1 hw with rfl | hw
      · cases hv
      · exact ih first w hw v hv
    | interpolation e =>
      have hlength : (interpolationsOf (.interpolation e :: parts)).length =
          (interpolationsOf parts).length + 1 := rfl
      rw [hlength, List.range'_succ, List.map_cons, List.mem_cons]
      rcases List.mem_cons.1 hw with rfl | hw
      · exact .inl (List.mem_singleton.1 hv)
      · exact .inr (ih (first + 1) w hw v hv)

theorem reads_contentWords (parts : List Fragment) (first : Nat) (pending : Option String) :
    ∀ w ∈ contentWords first pending parts, ∀ v ∈ w.reads,
      v ∈ (List.range' first (interpolationsOf parts).length).map interpolationName := by
  have hpending : ∀ pending : Option String, ∀ w ∈ pending.toList.map Word.literal, w.reads = [] := by
    intro pending w hw
    obtain ⟨s, -, rfl⟩ := List.mem_map.1 hw
    rfl
  induction parts generalizing first pending with
  | nil =>
    intro w hw v hv
    rw [hpending pending w hw] at hv
    cases hv
  | cons part parts ih =>
    intro w hw v hv
    cases part with
    | text s => exact ih first _ w hw v hv
    | interpolation e =>
      have hlength : (interpolationsOf (.interpolation e :: parts)).length =
          (interpolationsOf parts).length + 1 := rfl
      rw [hlength, List.range'_succ, List.map_cons, List.mem_cons]
      rcases List.mem_append.1 hw with hw | hw
      · rw [hpending pending w hw] at hv
        cases hv
      · rcases List.mem_cons.1 hw with rfl | hw
        · exact .inl (List.mem_singleton.1 hv)
        · exact .inr (ih (first + 1) none w hw v hv)

/-- A call of the script itself reads nothing. -/
theorem reads_commandWords (attributes : List String) (parts : List Fragment) (first : Nat) :
    ∀ w ∈ commandWords (selfWord p attributes) first parts, ∀ v ∈ w.reads,
      v ∈ (List.range' first (interpolationsOf parts).length).map interpolationName := by
  intro w hw
  unfold commandWords at hw
  split at hw
  · rename_i script s rest hscript
    split at hw
    · rcases List.mem_cons.1 hw with rfl | hw
      · unfold selfWord at hscript
        split at hscript
        · cases hscript
        · split at hscript
          · cases hscript
            exact fun v hv => by cases hv
          · cases hscript
            exact fun v hv => by cases hv
      · exact reads_pieceWords (.text (String.ofList (s.toList.drop 4)) :: rest) first w hw
    · exact reads_pieceWords _ first w hw
  · exact reads_pieceWords _ first w hw

/-- A command made of some fragments of a recipe. -/
theorem Step.Of.of_parts {u : Names} {parts : List Fragment} {words : List Word} {first : Nat}
    {interpolations : List Interpolation} {exports : List Export} {arguments : Arguments}
    (hparts : ∀ e ∈ interpolationsOf parts, e ∈ r.exprs)
    (hwords : ∀ w ∈ words, ∀ v ∈ w.reads,
      v ∈ (List.range' first (interpolationsOf parts).length).map interpolationName)
    (hvalues : List.Forall₂ (fun e i => IsWord u e i.value) (interpolationsOf parts) interpolations ∧
      interpolations.map (·.index) = List.range' first (interpolationsOf parts).length)
    (hexports : List.Forall₂ (fun v e => u.find? e.name = some v ∧ u.find? e.value = some ("VAR_" ++ v))
      (exportNames p r) exports)
    (harguments : ∀ v ∈ arguments.values, ∃ q ∈ r.parameters, u.find? v = some ("VAR_" ++ q.name)) :
    Step.Of u p r ⟨interpolations, words, exports, arguments⟩ := by
  refine ⟨fun i hi => ?_, fun w hw v hv => ?_, hexports, harguments⟩
  · obtain ⟨e, he, hword⟩ := exists_left_of_mem hvalues.1 i hi
    exact ⟨e, hparts e he, hword⟩
  · have hread := hwords w hw v hv
    rw [← hvalues.2, List.map_map] at hread
    exact hread

variable (hint : ∀ n, Internal n → A n) (hexports : ∀ v ∈ exportNames p r, A v)
  (hexprs : ∀ e ∈ r.exprs, ∀ n ∈ namesIn e, A n)

include hint hexports hexprs

theorem commandLine_takes (attributes : List String) (first : Nat) {l : Line}
    (hl : ∀ e ∈ interpolationsOf l.parts, e ∈ r.exprs) :
    Takes A (commandLine p attributes r first l) fun u c =>
      Step.Of u p r ⟨c.interpolations, c.command, c.exports, c.arguments⟩ := by
  have hvalues := interpolate_takes (fun e he => evaluate_takes (hexprs e (hl e he))) first
  refine hvalues.bind fun interpolations => (exportsOf_takes hint hexports).bind fun exports => ?_
  refine (argumentsOf_takes hint true).bind fun arguments => .pure fun u harguments hexports hvalues => ?_
  exact .of_parts hl (reads_commandWords attributes l.parts first) hvalues hexports harguments

theorem commandLines_takes (attributes : List String) {ls : List Line}
    (hls : ∀ l ∈ ls, ∀ e ∈ interpolationsOf l.parts, e ∈ r.exprs) (first : Nat) :
    Takes A (commandLines p attributes r first ls) fun u cs =>
      ∀ c ∈ cs, Step.Of u p r ⟨c.interpolations, c.command, c.exports, c.arguments⟩ := by
  induction ls generalizing first with
  | nil => exact .pure fun u c hc => absurd hc List.not_mem_nil
  | cons l ls ih =>
    rw [List.forall_mem_cons] at hls
    rw [commandLines]
    split
    · exact ih hls.2 first
    · refine (commandLine_takes hint hexports hexprs attributes first hls.1).bind fun c => ?_
      refine (ih hls.2 _).bind fun more => .pure fun u hmore hc => ?_
      exact List.forall_mem_cons.2 ⟨hc, hmore⟩

theorem bodyFile_takes (attributes : List String) :
    Takes A (bodyFile p attributes r) fun u f =>
      Step.Of u p r ⟨f.interpolations, f.content, f.exports, f.arguments⟩ := by
  have hpieces : ∀ e ∈ interpolationsOf (bodyPieces r.body), e ∈ r.exprs := by
    intro e he
    rw [interpolationsOf_bodyPieces] at he
    obtain ⟨l, hl, he⟩ := List.mem_flatMap.1 he
    exact mem_exprs_of_line hl he
  have hvalues := interpolate_takes (fun e he => evaluate_takes (hexprs e (hpieces e he))) 1
  refine hvalues.bind fun interpolations => (exportsOf_takes hint hexports).bind fun exports => ?_
  refine (argumentsOf_takes hint false).bind fun arguments => .pure fun u harguments hexports hvalues => ?_
  exact .of_parts hpieces (reads_contentWords (bodyPieces r.body) 1 none) hvalues hexports harguments

theorem bodyOf_takes (attributes : List String) :
    Takes A (bodyOf p attributes r) fun u b => ∀ s ∈ b.steps, s.Of u p r := by
  unfold bodyOf
  split
  · refine (bodyFile_takes hint hexports hexprs attributes).map fun u f hf s hs => ?_
    rw [List.mem_singleton.1 hs]
    exact hf
  · have hlines := commandLines_takes hint hexports hexprs attributes
      (fun l hl e he => mem_exprs_of_line hl he) 1
    refine hlines.map fun u cs hcs s hs => ?_
    obtain ⟨c, hc, rfl⟩ := List.mem_map.1 hs
    exact hcs c hc

end Steps

section Functions

variable {A : String → Prop} {p : Program} {r : Recipe} (hint : ∀ n, Internal n → A n)

theorem evaluate?_takes {e? : Option Expr} (h : ∀ e ∈ e?, ∀ n ∈ namesIn e, A n) :
    Takes A (evaluate? e?) fun u w? => ∀ w ∈ w?, ∃ e ∈ e?, IsWord u e w := by
  cases e? with
  | none => exact .pure fun u w hw => by cases hw
  | some e =>
    refine (evaluate_takes (h e rfl)).map fun u w hword w' hw' => ?_
    cases hw'
    exact ⟨e, rfl, hword⟩

include hint

/-- Parameters are taken into the variables of their names. -/
theorem slotsOf_takes {qs : List Parameter} (h : ∀ q ∈ qs, ∀ e ∈ q.default, ∀ n ∈ namesIn e, A n) (place : Nat) :
    Takes A (slotsOf place qs) fun u slots => List.Forall₂ (fun q (slot : Slot) =>
      u.find? slot.name = some ("VAR_" ++ q.name) ∧ ∀ w ∈ slot.default, ∃ e ∈ q.default, IsWord u e w) qs slots := by
  induction qs generalizing place with
  | nil => exact .pure fun _ => .nil
  | cons q qs ih =>
    rw [List.forall_mem_cons] at h
    refine (Takes.cleanName (hint _ (.ofVariable q.name))).bind fun name => ?_
    refine (evaluate?_takes h.1).bind fun default => (ih h.2 (place + 1)).bind fun more => ?_
    exact .pure fun u hmore hdefault hname => .cons ⟨hname, hdefault⟩ hmore

theorem remainderOf_takes (h : ∀ v ∈ r.variadic, ∀ e ∈ v.param.default, ∀ n ∈ namesIn e, A n) :
    Takes A (remainderOf r) fun u rem? => List.Forall₂ (fun (v : Variadic) (rem : Remainder) =>
      u.find? rem.name = some ("VAR_" ++ v.param.name) ∧
        ∀ w ∈ rem.default, ∃ e ∈ v.param.default, IsWord u e w) r.variadic.toList rem?.toList := by
  unfold remainderOf
  cases hv : r.variadic with
  | none => exact .pure fun _ => .nil
  | some v =>
    refine (Takes.cleanName (hint _ (.ofVariable v.param.name))).bind fun name => ?_
    refine (evaluate?_takes (h v hv)).bind fun default => .pure fun u hdefault hname => ?_
    exact .cons ⟨hname, hdefault⟩ .nil

variable (hexprs : ∀ e ∈ r.exprs, ∀ n ∈ namesIn e, A n)

include hexprs

theorem intakeOf_takes : Takes A (intakeOf r) fun u i? =>
    List.Forall₂ (fun q v => u.find? v = some ("VAR_" ++ q.base.name)) r.params (i?.elim [] Intake.writes) ∧
      ∀ w ∈ i?.elim [] Intake.defaults, ∃ e ∈ r.exprs, IsWord u e w := by
  unfold intakeOf
  split
  · rename_i hempty
    rw [List.isEmpty_iff.1 hempty]
    exact .pure fun u => ⟨.nil, fun w hw => absurd hw List.not_mem_nil⟩
  · -- plain parameters and the variadic one are parameters of either kind
    have hplain : ∀ q ∈ r.parameters, ∀ e ∈ q.default, e ∈ r.exprs := fun q hq e he =>
      mem_exprs_of_default (List.mem_append_left _ (List.mem_map_of_mem hq)) he
    have hvariadic : ∀ v ∈ r.variadic, ∀ e ∈ v.param.default, e ∈ r.exprs := fun v hv e he => by
      refine mem_exprs_of_default (q := .variadic v) (List.mem_append_right _ ?_) he
      exact Option.mem_toList.2 (Option.map_eq_some_iff.2 ⟨v, hv, rfl⟩)
    refine (Takes.ofExcept (leastOf r)).bind fun least => ?_
    refine (slotsOf_takes hint (fun q hq e he => hexprs e (hplain q hq e he)) 1).bind fun slots => ?_
    refine (remainderOf_takes hint fun v hv e he => hexprs e (hvariadic v hv e he)).bind fun rem => ?_
    refine .pure fun u hrem hslots _ => ⟨?_, fun w hw => ?_⟩
    · refine List.rel_append ?_ ?_
      · rw [List.forall₂_map_left_iff, List.forall₂_map_right_iff]
        exact hslots.imp fun q slot h => h.1
      · rw [Option.toList_map, Option.toList_map, List.forall₂_map_left_iff, List.forall₂_map_right_iff]
        exact hrem.imp fun v rem h => h.1
    · rcases List.mem_append.1 hw with hw | hw
      · obtain ⟨slot, hslot, hw⟩ := List.mem_filterMap.1 hw
        obtain ⟨q, hq, -, hdefault⟩ := exists_left_of_mem hslots slot hslot
        obtain ⟨e, he, hword⟩ := hdefault w hw
        exact ⟨e, hplain q hq e he, hword⟩
      · obtain ⟨rem', hrem', hw⟩ := Option.bind_eq_some_iff.1 (Option.mem_toList.1 hw)
        obtain ⟨v, hv, -, hdefault⟩ := exists_left_of_mem hrem rem' (Option.mem_toList.2 hrem')
        obtain ⟨e, he, hword⟩ := hdefault w hw
        exact ⟨e, hvariadic v (Option.mem_toList.1 hv) e he, hword⟩

theorem beforeRun_takes {d : Dependency} (hd : d ∈ r.before) : Takes A (beforeRun r d) fun u run => run.Of u d := by
  have hargs := evaluateAll_takes fun e he => hexprs e (mem_exprs_of_args (List.mem_append_left _ hd) he)
  refine hargs.bind fun args => (Takes.cleanName (hint _ (.ofForce r.name))).bind fun _ => ?_
  refine (Takes.cleanName (hint _ (.ofForce d.name))).bind fun force => ?_
  refine (Takes.cleanName (hint _ (.ofFunction d.name))).bind fun function => ?_
  exact .pure fun u hfunction hforce _ hargs => ⟨hforce, hfunction, hargs⟩

theorem afterRuns_takes {ds : List Dependency} (hds : ∀ d ∈ ds, d ∈ r.after) (seen : List String) :
    Takes A (afterRuns seen ds) fun u runs => ∀ run ∈ runs, ∃ d ∈ r.after, run.Of u d := by
  induction ds generalizing seen with
  | nil => exact .pure fun u run hrun => absurd hrun List.not_mem_nil
  | cons d ds ih =>
    rw [List.forall_mem_cons] at hds
    have hargs := evaluateAll_takes fun e he => hexprs e (mem_exprs_of_args (List.mem_append_right _ hds.1) he)
    refine hargs.bind fun args => ?_
    split
    · exact (ih hds.2 seen).mono fun u runs hruns _ => hruns
    · refine (Takes.cleanName (hint _ (.ofForce d.name))).bind fun force => ?_
      refine (Takes.cleanName (hint _ (.ofFunction d.name))).bind fun function => (ih hds.2 _).bind fun more => ?_
      refine .pure fun u hmore hfunction hforce hargs => List.forall_mem_cons.2 ⟨?_, hmore⟩
      exact ⟨d, hds.1, hforce, hfunction, hargs⟩

/-- **The function of a recipe.** -/
theorem recipeFunction_takes (attributes : List String) (hexports : ∀ v ∈ exportNames p r, A v) :
    Takes A (recipeFunction p attributes r) fun u f => f.Of u p attributes r := by
  refine (bodyOf_takes hint hexports hexprs attributes).bind fun body => ?_
  refine (Takes.cleanName (hint _ (.ofFunction _))).bind fun name => ?_
  refine (Takes.cleanName (hint _ (.ofHasRun r.name))).bind fun hasRun => ?_
  refine (Takes.cleanName (hint _ (.ofForce r.name))).bind fun force => ?_
  refine (intakeOf_takes hint hexprs).bind fun intake => ?_
  refine (Takes.mapM fun d hd => beforeRun_takes hint hexprs hd).bind fun before => ?_
  refine (afterRuns_takes hint hexprs (fun d hd => hd) []).bind fun after => ?_
  exact .pure fun u hafter hbefore hintake hforce hhasRun hname hbody =>
    ⟨hname, hhasRun, hforce, hintake.1, hintake.2, hbefore, hafter, hbody⟩

end Functions

/-- The entries of an item: the function of its recipe, its comment, or the function of its alias. -/
inductive Row (u : Names) (p : Program) : Item → List Entry → Prop where
  | recipe {attributes : List String} {r : Recipe} {f : RecipeFunction} (h : f.Of u p attributes r) :
      Row u p ⟨attributes, .recipe r⟩ [.recipe f]
  | ofComment {attributes : List String} (s : String) : Row u p ⟨attributes, .comment s⟩ [.comment s]
  | ofAlias {attributes : List String} {name target : String} {f : AliasFunction}
      (hname : u.find? f.name = some ("FUN_" ++ name)) (htarget : u.find? f.target = some ("FUN_" ++ target)) :
      Row u p ⟨attributes, .alias name target⟩ [.alias f]
  | none {i : Item} (hrecipe : ∀ r, i.declaration ≠ .recipe r) (halias : ∀ n t, i.declaration ≠ .alias n t) :
      Row u p i []

/-- A branch of a dispatcher. -/
structure Branch.Of (u : Names) (choice : String × String) (b : Branch) : Prop where
  platform : b.platform = choice.1
  detector : b.detector = ((Platform.ofName? choice.1).map (·.detector)).getD "os"
  function : u.find? b.function = some ("FUN_" ++ choice.2)

/-- The dispatcher of a recipe name, with a branch for each of its functions. -/
inductive Dispatches (u : Names) : String × Table String → Entry → Prop where
  | mk {recipe : String} {functions : Table String} {d : Dispatcher}
      (hname : u.find? d.name = some ("FUN_" ++ recipe))
      (hbranches : List.Forall₂ (Branch.Of u) functions.entries d.branches) :
      Dispatches u (recipe, functions) (.dispatcher d)

/-- The script of a program, with the names of the table `u`. -/
structure Of (u : Names) (p : Program) (s : Script) : Prop where
  helpers : s.helpers = p.helpers.values
  assignments : List.Forall₂ (fun e a => u.find? a.name = some ("VAR_" ++ e.1) ∧ IsWord u e.2 a.value)
    p.values.entries s.assignments
  entries : ∃ rows dispatchers, s.entries = rows.flatten ++ dispatchers ∧
    List.Forall₂ (Row u p) p.items rows ∧ List.Forall₂ (Dispatches u) p.platforms.entries dispatchers
  sortedVariables : List.Forall₂ (fun name v => u.find? v.shellName = some ("VAR_" ++ name))
    (sortStrings p.values.keys) s.sortedVariables
  declared : List.Forall₂ (fun name v => u.find? v.shellName = some ("VAR_" ++ name))
    p.values.keys s.declared
  cases : List.Forall₂ (fun target c => u.find? c.function = some ("FUN_" ++ target)) p.targets s.cases
  default : ∀ d ∈ s.default, ∃ recipe ∈ p.recipes, u.find? d.function = some ("FUN_" ++ recipe)

section Scripts

variable {A : String → Prop} {p : Program} (hint : ∀ n, Internal n → A n)

include hint

theorem itemEntries_takes {i : Item} (hexprs : ∀ e ∈ i.declaration.exprs, ∀ n ∈ namesIn e, A n)
    (hexports : ∀ r, i.declaration = .recipe r → ∀ v ∈ exportNames p r, A v) :
    Takes A (itemEntries p i) fun u row => Row u p i row := by
  obtain ⟨attributes, declaration⟩ := i
  unfold itemEntries
  cases declaration with
  | recipe r =>
    refine (recipeFunction_takes hint hexprs attributes (hexports r rfl)).bind fun f => ?_
    exact .pure fun u hf => .recipe hf
  | comment s => exact .pure fun u => .ofComment s
  | «alias» name target =>
    refine (Takes.cleanName (hint _ (.ofFunction name))).bind fun name => ?_
    refine (Takes.cleanName (hint _ (.ofFunction target))).bind fun target => ?_
    exact .pure fun u htarget hname => .ofAlias hname htarget
  | _ => exact .pure fun u => .none (fun r h => by cases h) fun n t h => by cases h

theorem dispatcherOf_takes (recipe : String) (functions : Table String) :
    Takes A (dispatcherOf recipe functions) fun u d => Dispatches u (recipe, functions) d := by
  have hbranch : ∀ choice ∈ functions.entries,
      Takes A (branchOf choice.1 choice.2) fun u b => b.Of u choice := by
    intro choice _
    refine (Takes.cleanName (hint _ (.ofFunction choice.2))).bind fun function => ?_
    exact .pure fun u hfunction => ⟨rfl, rfl, hfunction⟩
  refine (Takes.mapM hbranch).bind fun branches => ?_
  refine (Takes.cleanName (hint _ (.ofFunction recipe))).bind fun name => ?_
  exact .pure fun u hname hbranches => .mk hname hbranches

theorem entriesOf_takes (hexprs : ∀ i ∈ p.items, ∀ e ∈ i.declaration.exprs, ∀ n ∈ namesIn e, A n)
    (hexports : ∀ i ∈ p.items, ∀ r, i.declaration = .recipe r → ∀ v ∈ exportNames p r, A v) :
    Takes A (entriesOf p) fun u entries => ∃ rows dispatchers, entries = rows.flatten ++ dispatchers ∧
      List.Forall₂ (Row u p) p.items rows ∧ List.Forall₂ (Dispatches u) p.platforms.entries dispatchers := by
  refine (Takes.mapM fun i hi => itemEntries_takes hint (hexprs i hi) (hexports i hi)).bind fun rows => ?_
  refine (Takes.mapM fun e _ => dispatcherOf_takes hint e.1 e.2).bind fun dispatchers => ?_
  exact .pure fun u hdispatchers hrows => ⟨rows, dispatchers, rfl, hrows, hdispatchers⟩

theorem defaultOf_takes : Takes A (defaultOf p) fun u d? =>
    ∀ d ∈ d?, ∃ recipe ∈ p.recipes, u.find? d.function = some ("FUN_" ++ recipe) := by
  unfold defaultOf
  split
  · exact .pure fun u d hd => by cases hd
  · rename_i recipe rest hrecipes
    refine (Takes.cleanName (hint _ (.ofFunction recipe))).bind fun function => .pure fun u hfunction d hd => ?_
    cases hd
    exact ⟨recipe, by rw [hrecipes]; exact List.mem_cons_self, hfunction⟩

/-- **The script of a program.** -/
theorem ofProgram_takes (edition : Edition) (outfile justfile : String)
    (hvalues : ∀ e ∈ p.values.values, ∀ n ∈ namesIn e, A n)
    (hexprs : ∀ i ∈ p.items, ∀ e ∈ i.declaration.exprs, ∀ n ∈ namesIn e, A n)
    (hexports : ∀ i ∈ p.items, ∀ r, i.declaration = .recipe r → ∀ v ∈ exportNames p r, A v) :
    Takes A (ofProgram edition outfile justfile p) fun u s => s.Of u p := by
  have hassignment : ∀ e ∈ p.values.entries, Takes A (assignmentOf e.1 e.2) fun u a =>
      u.find? a.name = some ("VAR_" ++ e.1) ∧ IsWord u e.2 a.value := by
    intro e he
    refine (Takes.cleanName (hint _ (.ofVariable e.1))).bind fun name => ?_
    refine (evaluate_takes (hvalues e.2 (List.mem_map_of_mem he))).bind fun value => ?_
    exact .pure fun u hvalue hname => ⟨hname, hvalue⟩
  have hvariables : ∀ names : List String, Takes A (names.mapM variableOf) fun u vs =>
      List.Forall₂ (fun name v => u.find? v.shellName = some ("VAR_" ++ name)) names vs := by
    refine fun names => .mapM fun name _ => ?_
    exact (Takes.cleanName (hint _ (.ofVariable name))).bind fun shellName => .pure fun u h => h
  have hcases : Takes A (p.targets.mapM (caseOf p)) fun u cs =>
      List.Forall₂ (fun target c => u.find? c.function = some ("FUN_" ++ target)) p.targets cs := by
    refine .mapM fun target _ => ?_
    exact (Takes.cleanName (hint _ (.ofFunction target))).bind fun function => .pure fun u h => h
  unfold ofProgram
  refine (Takes.ofExcept _).bind fun banner => (Takes.mapM hassignment).bind fun assignments => ?_
  refine (entriesOf_takes hint hexprs hexports).bind fun entries => (Takes.ofExcept _).bind fun sortedList => ?_
  refine (Takes.ofExcept _).bind fun list => (hvariables _).bind fun sortedVariables => ?_
  refine (hvariables _).bind fun declared => hcases.bind fun cases => (defaultOf_takes hint).bind fun default => ?_
  exact .pure fun u hdefault hcases hdeclared hsorted _ _ hentries hassignments _ =>
    ⟨rfl, hassignments, hentries, hsorted, hdeclared, hcases, hdefault⟩

end Scripts

end Script

end Justfile
