import Justfile.Proofs.Parts
import Justfile.Proofs.Refusals

/-!
# What a program takes over from its items

The tables of a program are filled item by item. Read as relations, each of them says what some items
declare: the variables, the functions for each platform, the aliases, the targets.

* `recipesIn`, `aliasesIn`, `assignmentsIn`: what the items of a justfile declare, in order.
* `mem_platformsOf`, `mem_keys_platformsOf`: which functions are chosen from, and for which names.
* `Program.From`: the tables of a program, in these terms.
* `Made`: a program and a script of the same items, and the table of names that is left.
  `made_of_compile`: every justfile that is compiled has them.
* `Made.functions`, `Made.aliases`, `Made.dispatchers`: the functions of the script, in the order of the items.
  `Made.branch`: what a dispatcher calls.
-/

namespace Justfile

open Shell Shell.Names

namespace Table

variable {α : Type} {t : Table α} {key : String} {value : α}

theorem mem_entries_put (t : Table α) (key : String) (value : α) :
    ∀ x ∈ (t.put key value).entries, x ∈ t.entries ∨ x = (key, value) := by
  obtain ⟨entries⟩ := t
  simp only [put]
  induction entries with
  | nil => exact fun x hx => .inr (List.mem_singleton.1 hx)
  | cons e rest ih =>
    intro x hx
    by_cases hk : (key == e.1) = true
    · rw [putIn, if_pos hk] at hx
      rcases List.mem_cons.1 hx with rfl | hx
      · exact .inr (by rw [eq_of_beq hk])
      · exact .inl (List.mem_cons_of_mem _ hx)
    · rw [putIn, if_neg hk] at hx
      rcases List.mem_cons.1 hx with rfl | hx
      · exact .inl List.mem_cons_self
      · exact (ih x hx).imp (List.mem_cons_of_mem _) id

/-- A key that is there keeps its place. -/
theorem keys_put_of_mem (h : key ∈ t.keys) (value : α) : (t.put key value).keys = t.keys := by
  obtain ⟨entries⟩ := t
  simp only [put, keys] at h ⊢
  induction entries with
  | nil => cases h
  | cons e rest ih =>
    by_cases hk : (key == e.1) = true
    · rw [putIn, if_pos hk, List.map_cons, List.map_cons]
    · have hne : key ≠ e.1 := fun heq => hk (beq_iff_eq.2 heq)
      rw [putIn, if_neg hk, List.map_cons, List.map_cons, ih ((List.mem_cons.1 h).resolve_left hne)]

/-- A new key comes last. -/
theorem keys_put_of_notMem (h : key ∉ t.keys) (value : α) : (t.put key value).keys = t.keys ++ [key] := by
  obtain ⟨entries⟩ := t
  simp only [put, keys] at h ⊢
  induction entries with
  | nil => rfl
  | cons e rest ih =>
    rw [List.map_cons, List.mem_cons, not_or] at h
    have hk : ¬ (key == e.1) = true := fun hk => h.1 (eq_of_beq hk)
    rw [putIn, if_neg hk, List.map_cons, List.map_cons, ih h.2, List.cons_append]

theorem mem_keys_put (t : Table α) (key : String) (value : α) (k : String) :
    k ∈ (t.put key value).keys ↔ k ∈ t.keys ∨ k = key := by
  by_cases hkey : key ∈ t.keys
  · rw [keys_put_of_mem hkey]
    exact ⟨.inl, fun hk => hk.elim id fun heq => heq ▸ hkey⟩
  · rw [keys_put_of_notMem hkey, List.mem_append, List.mem_singleton]

/-- No key comes twice. -/
theorem nodup_keys_put (h : t.keys.Nodup) (key : String) (value : α) : (t.put key value).keys.Nodup := by
  by_cases hkey : key ∈ t.keys
  · rw [keys_put_of_mem hkey]
    exact h
  · rw [keys_put_of_notMem hkey, ← List.concat_eq_append]
    exact h.concat hkey

theorem mem_entries_of_find? (h : t.find? key = some value) : (key, value) ∈ t.entries := by
  obtain ⟨before, after, hsplit, -⟩ := List.lookup_eq_some_iff.1 h
  rw [hsplit]
  simp

end Table

/-- The recipes of a justfile with their attributes. -/
def recipesIn (items : List Item) : List (List String × Recipe) :=
  items.filterMap fun i => match i.declaration with
    | .recipe r => some (i.attributes, r)
    | _ => none

/-- The aliases of a justfile with their targets. -/
def aliasesIn (items : List Item) : List (String × String) :=
  items.filterMap fun i => match i.declaration with
    | .alias name target => some (name, target)
    | _ => none

/-- The variables of a justfile with their values, each as often as it is declared. -/
def assignmentsIn (items : List Item) : List (String × Expr) :=
  items.filterMap fun i => match i.declaration with
    | .assignment name value => some (name, value)
    | .exported name value => some (name, value)
    | _ => none

section Items

variable {items : List Item}

theorem mem_recipesIn {attributes : List String} {r : Recipe} :
    (attributes, r) ∈ recipesIn items ↔ ⟨attributes, .recipe r⟩ ∈ items := by
  constructor
  · intro h
    obtain ⟨⟨attributes', declaration⟩, hi, hd⟩ := List.mem_filterMap.1 h
    cases declaration with
    | recipe r' =>
      cases hd
      exact hi
    | _ => cases hd
  · exact fun h => List.mem_filterMap.2 ⟨_, h, rfl⟩

theorem mem_aliasesIn {name target : String} :
    (name, target) ∈ aliasesIn items ↔ ∃ i ∈ items, i.declaration = .alias name target := by
  constructor
  · intro h
    obtain ⟨i, hi, hd⟩ := List.mem_filterMap.1 h
    refine ⟨i, hi, ?_⟩
    cases hdecl : i.declaration with
    | «alias» name' target' =>
      rw [hdecl] at hd
      cases hd
      rfl
    | _ =>
      rw [hdecl] at hd
      cases hd
  · rintro ⟨i, hi, hd⟩
    exact List.mem_filterMap.2 ⟨i, hi, by rw [hd]⟩

theorem recipesIn_cons_of_ne {i : Item} (h : ∀ r, i.declaration ≠ .recipe r) :
    recipesIn (i :: items) = recipesIn items := by
  refine List.filterMap_cons_none ?_
  cases hd : i.declaration with
  | recipe r => exact absurd hd (h r)
  | _ => rfl

theorem aliasesIn_cons_of_ne {i : Item} (h : ∀ n t, i.declaration ≠ .alias n t) :
    aliasesIn (i :: items) = aliasesIn items := by
  refine List.filterMap_cons_none ?_
  cases hd : i.declaration with
  | «alias» n t => exact absurd hd (h n t)
  | _ => rfl

theorem exprs_of_mem_assignmentsIn {name : String} {value : Expr} (h : (name, value) ∈ assignmentsIn items) :
    ∃ i ∈ items, value ∈ i.declaration.exprs := by
  obtain ⟨i, hi, hd⟩ := List.mem_filterMap.1 h
  refine ⟨i, hi, ?_⟩
  cases hdecl : i.declaration with
  | assignment name' value' | exported name' value' =>
    rw [hdecl] at hd
    cases hd
    exact List.mem_singleton_self _
  | _ =>
    rw [hdecl] at hd
    cases hd

end Items

/-- Two lists with one separator agree before and after it, if it does not come after it again. -/
theorem append_cons_inj_of_notMem {α : Type} {c : α} {as bs cs ds : List α} (hcs : c ∉ cs) (hds : c ∉ ds)
    (h : as ++ c :: cs = bs ++ c :: ds) : as = bs ∧ cs = ds := by
  -- if one list were longer than the other, its separator would come after that of the other
  have hshort : ∀ {more l l' : List α}, c ∉ l → c :: l = more ++ c :: l' → more = [] ∧ l = l' := by
    intro more l l' hl heq
    cases more with
    | nil => exact ⟨rfl, (List.cons.inj heq).2⟩
    | cons x more =>
      rw [(List.cons.inj heq).2] at hl
      exact absurd (List.mem_append_right more List.mem_cons_self) hl
  rcases List.append_eq_append_iff.1 h with ⟨more, hbs, hrest⟩ | ⟨more, has, hrest⟩
  · obtain ⟨rfl, htail⟩ := hshort hcs hrest
    exact ⟨by rw [hbs, List.append_nil], htail⟩
  · obtain ⟨rfl, htail⟩ := hshort hds hrest
    exact ⟨by rw [has, List.append_nil], htail.symm⟩

/-- In a settled table names of one kind and their shell names go together one by one. -/
theorem Shell.Names.Settled.biUnique {u : Names} (hu : Settled u) (kind : String) :
    Relator.BiUnique fun name shell => u.find? shell = some (kind ++ name) :=
  ⟨fun _ _ _ h h' => (String.append_right_inj kind).1 (Option.some.inj (h.symm.trans h')),
    fun _ _ _ h h' => (hu.eq_iff h h').2 rfl⟩

/-- What one step brings about and every step keeps holds after all steps. -/
theorem foldl_reaches {α β : Type} {Q : β → Prop} {step : β → α → β} {l : List α} {a : α} (ha : a ∈ l)
    (hstep : ∀ b, Q (step b a)) (hkeep : ∀ b x, Q b → Q (step b x)) (b : β) : Q (l.foldl step b) := by
  have hrest : ∀ (l : List α) b, Q b → Q (l.foldl step b) := by
    intro l b hb
    exact List.foldlRecOn l step hb fun b hb x _ => hkeep b x hb
  induction l generalizing b with
  | nil => cases ha
  | cons x l ih =>
    rw [List.foldl_cons]
    rcases List.mem_cons.1 ha with rfl | ha
    · exact hrest l _ (hstep b)
    · exact ih ha _

namespace Program

variable {items : List Item}

/-- The variables of a program have values that are assigned to them. -/
theorem mem_variablesOf : ∀ x ∈ (variablesOf items).entries, x ∈ assignmentsIn items := by
  refine List.foldlRecOn (motive := fun t : Table Expr => ∀ x ∈ t.entries, x ∈ assignmentsIn items) items _
    (fun x hx => absurd hx List.not_mem_nil) fun t ht i hi => ?_
  have hput : ∀ name value, (name, value) ∈ assignmentsIn items →
      ∀ x ∈ (t.put name value).entries, x ∈ assignmentsIn items := by
    intro name value hmem x hx
    rcases Table.mem_entries_put t name value x hx with hx | rfl
    · exact ht x hx
    · exact hmem
  cases hd : i.declaration with
  | assignment name value | exported name value =>
    exact hput name value (List.mem_filterMap.2 ⟨i, hi, by rw [hd]⟩)
  | _ => exact ht

/-- Every variable that is assigned is one of the program. -/
theorem mem_keys_variablesOf {name : String} (h : name ∈ (assignmentsIn items).map (·.1)) :
    name ∈ (variablesOf items).keys := by
  obtain ⟨⟨name', value⟩, hx, rfl⟩ := List.mem_map.1 h
  obtain ⟨i, hi, hd⟩ := List.mem_filterMap.1 hx
  refine foldl_reaches (Q := fun t : Table Expr => name' ∈ t.keys) hi (fun t => ?_) (fun t j hkey => ?_) .empty
  · cases hdecl : i.declaration with
    | assignment n e | exported n e =>
      rw [hdecl] at hd
      cases hd
      exact (Table.mem_keys_put t _ _ _).2 (.inr rfl)
    | _ =>
      rw [hdecl] at hd
      cases hd
  · cases hdecl : j.declaration with
    | assignment n e | exported n e => exact (Table.mem_keys_put t _ _ _).2 (.inl hkey)
    | _ => exact hkey

/-- A platform, and the function for it of a recipe with this name. -/
def IsChoice (items : List Item) (name : String) (choice : String × String) : Prop :=
  ∃ attributes r platform, (attributes, r) ∈ recipesIn items ∧ r.name = name ∧
    platform ∈ Platform.ofAttributes attributes ∧
    choice = (platform.name, Platform.functionName r.name (Platform.ofAttributes attributes))

/-- The functions that a dispatcher chooses from are those of recipes for platforms. -/
theorem mem_platformsOf : ∀ x ∈ (platformsOf items).entries, ∀ y ∈ x.2.entries, IsChoice items x.1 y := by
  refine List.foldlRecOn (motive := fun t : Table (Table String) =>
    ∀ x ∈ t.entries, ∀ y ∈ x.2.entries, IsChoice items x.1 y) items _
    (fun x hx => absurd hx List.not_mem_nil) fun t ht i hi => ?_
  cases hd : i.declaration with
  | recipe r =>
    have hmem : (i.attributes, r) ∈ recipesIn items := List.mem_filterMap.2 ⟨i, hi, by rw [hd]⟩
    refine List.foldlRecOn (motive := fun t : Table (Table String) =>
      ∀ x ∈ t.entries, ∀ y ∈ x.2.entries, IsChoice items x.1 y)
      (Platform.ofAttributes i.attributes) _ ht fun t ht platform hplatform x hx y hy => ?_
    rcases Table.mem_entries_put _ _ _ x hx with hx | rfl
    · exact ht x hx y hy
    · rcases Table.mem_entries_put _ _ _ y hy with hy | rfl
      · -- a function for a platform that the name had before
        cases hfind : t.find? r.name with
        | none =>
          rw [hfind] at hy
          exact absurd hy List.not_mem_nil
        | some functions =>
          rw [hfind] at hy
          exact ht _ (Table.mem_entries_of_find? hfind) y hy
      · exact ⟨i.attributes, r, platform, hmem, rfl, hplatform, rfl⟩
  | _ => exact ht

/-- There is a dispatcher for the name of every recipe for a platform. -/
theorem mem_keys_platformsOf {attributes : List String} {r : Recipe} (h : (attributes, r) ∈ recipesIn items)
    (hplatforms : Platform.ofAttributes attributes ≠ []) : r.name ∈ (platformsOf items).keys := by
  obtain ⟨platform, hplatform⟩ := List.exists_mem_of_ne_nil _ hplatforms
  have hput : ∀ (t : Table (Table String)) k v, r.name ∈ t.keys → r.name ∈ (t.put k v).keys :=
    fun t k v hkey => (Table.mem_keys_put t k v r.name).2 (.inl hkey)
  refine foldl_reaches (Q := fun t : Table (Table String) => r.name ∈ t.keys) (mem_recipesIn.1 h)
    (fun t => ?_) (fun t j hkey => ?_) .empty
  · refine foldl_reaches (Q := fun t : Table (Table String) => r.name ∈ t.keys) hplatform (fun t => ?_)
      (fun t _ hkey => hput t _ _ hkey) t
    exact (Table.mem_keys_put _ _ _ _).2 (.inr rfl)
  · cases hd : j.declaration with
    | recipe r' =>
      exact List.foldlRecOn (motive := fun t : Table (Table String) => r.name ∈ t.keys) _ _ hkey
        fun t hkey _ _ => hput t _ _ hkey
    | _ => exact hkey

/-- The name of a dispatcher is that of a recipe for a platform. -/
theorem exists_of_mem_keys_platformsOf {name : String} (h : name ∈ (platformsOf items).keys) :
    ∃ x ∈ recipesIn items, x.2.name = name ∧ Platform.ofAttributes x.1 ≠ [] := by
  revert h
  refine List.foldlRecOn (motive := fun t : Table (Table String) => name ∈ t.keys →
    ∃ x ∈ recipesIn items, x.2.name = name ∧ Platform.ofAttributes x.1 ≠ []) items _
    (fun h => absurd h List.not_mem_nil) fun t ht i hi => ?_
  cases hd : i.declaration with
  | recipe r =>
    have hmem : (i.attributes, r) ∈ recipesIn items := List.mem_filterMap.2 ⟨i, hi, by rw [hd]⟩
    refine List.foldlRecOn (motive := fun t : Table (Table String) => name ∈ t.keys →
      ∃ x ∈ recipesIn items, x.2.name = name ∧ Platform.ofAttributes x.1 ≠ [])
      (Platform.ofAttributes i.attributes) _ ht fun t ht platform hplatform hkey => ?_
    rcases (Table.mem_keys_put _ _ _ _).1 hkey with hkey | rfl
    · exact ht hkey
    · exact ⟨_, hmem, rfl, List.ne_nil_of_mem hplatform⟩
  | _ => exact ht

/-- There is one dispatcher for each name. -/
theorem nodup_keys_platformsOf : (platformsOf items).keys.Nodup := by
  refine List.foldlRecOn (motive := fun t : Table (Table String) => t.keys.Nodup) items _ .nil fun t ht i _ => ?_
  cases hd : i.declaration with
  | recipe r =>
    exact List.foldlRecOn (motive := fun t : Table (Table String) => t.keys.Nodup) _ _ ht
      fun t ht _ _ => Table.nodup_keys_put ht _ _
  | _ => exact ht

/-- The aliases of a target. -/
theorem mem_aliasesOf : ∀ x ∈ (aliasesOf items).entries, ∀ name ∈ x.2, (name, x.1) ∈ aliasesIn items := by
  refine List.foldlRecOn (motive := fun t : Table (List String) =>
    ∀ x ∈ t.entries, ∀ name ∈ x.2, (name, x.1) ∈ aliasesIn items) items _
    (fun x hx => absurd hx List.not_mem_nil) fun t ht i hi => ?_
  cases hd : i.declaration with
  | «alias» name target =>
    intro x hx n hn
    rcases Table.mem_entries_put _ _ _ x hx with hx | rfl
    · exact ht x hx n hn
    · rcases List.mem_append.1 hn with hn | hn
      · cases hfind : t.find? target with
        | none =>
          rw [hfind] at hn
          cases hn
        | some names =>
          rw [hfind] at hn
          exact ht _ (Table.mem_entries_of_find? hfind) n hn
      · rw [List.mem_singleton.1 hn]
        exact mem_aliasesIn.2 ⟨i, hi, hd⟩
  | _ => exact ht

/-- The recipes of a program are those of its items. -/
theorem collectRecipes_eq {duplicates : Bool} {found names : List String}
    (h : collectRecipes duplicates found items = .ok names) :
    names = found ++ (recipesIn items).map (·.2.name) := by
  fun_induction collectRecipes duplicates found items with
  | case1 =>
    cases h
    exact (List.append_nil _).symm
  | case2 => cases h
  | case3 found r attributes rest _ ih =>
    rw [ih h, List.append_assoc]
    rfl
  | case4 found i rest hnot ih =>
    rw [ih h]
    obtain ⟨attributes, declaration⟩ := i
    cases declaration with
    | recipe r => exact absurd rfl (hnot attributes r)
    | _ => rfl

end Program

/-- A target is a recipe or an alias of one. -/
theorem Targets.mem_inOrder {aliases : Table (List String)} {isPrivate : String → Bool} {recipes : List String} :
    ∀ n ∈ (Targets.inOrder aliases isPrivate recipes).all,
      n ∈ recipes ∨ ∃ r ∈ recipes, n ∈ (aliases.find? r).getD [] := by
  refine List.foldlRecOn (motive := fun t : Targets => ∀ n ∈ t.all, n ∈ recipes ∨
    ∃ r ∈ recipes, n ∈ (aliases.find? r).getD []) recipes _ (fun n hn => absurd hn List.not_mem_nil)
    fun t ht r hr => ?_
  unfold Targets.addRecipe
  split
  · exact ht
  · refine List.foldlRecOn (motive := fun t : Targets => ∀ n ∈ t.all, n ∈ recipes ∨
      ∃ r ∈ recipes, n ∈ (aliases.find? r).getD []) _ _ (fun n hn => ?_) fun t ht a ha n hn => ?_
    · simp only [Bool.false_eq_true, if_false] at hn
      rcases List.mem_append.1 hn with hn | hn
      · exact ht n hn
      · rw [List.mem_singleton.1 hn]
        exact .inl hr
    · unfold Targets.addAlias at hn
      split at hn
      · exact ht n hn
      · rcases List.mem_append.1 hn with hn | hn
        · exact ht n hn
        · rw [List.mem_singleton.1 hn]
          exact .inr ⟨r, hr, (List.mergeSort_perm _ _).mem_iff.1 ha⟩

/-- What a program has of its items. -/
structure Program.From (items : List Item) (p : Program) : Prop where
  values : p.values = Program.variablesOf items
  exports : p.exports = Program.exportsOf items
  platforms : p.platforms = Program.platformsOf items
  recipes : p.recipes = (recipesIn items).map (·.2.name)
  targets : ∀ n ∈ p.targets, n ∈ p.recipes ∨ ∃ r ∈ p.recipes, (n, r) ∈ aliasesIn items
  items : p.items = items

theorem Program.from_ofItems {items : List Item} {t : Names} {p : Program}
    (h : (Program.ofItems items).result t = .ok p) : p.From items := by
  have hprogram := Program.assembled_of_ofItems h
  have hnames : p.recipes = (recipesIn items).map (·.2.name) := Program.collectRecipes_eq hprogram.recipes
  refine ⟨hprogram.values, hprogram.exports, hprogram.platforms, hnames, fun n hn => ?_, hprogram.items⟩
  rw [hprogram.targets, hprogram.aliases] at hn
  rcases Targets.mem_inOrder n hn with hn | ⟨r, hr, hn⟩
  · exact .inl hn
  · refine .inr ⟨r, hr, ?_⟩
    cases hfind : (Program.aliasesOf items).find? r with
    | none =>
      rw [hfind] at hn
      cases hn
    | some names =>
      rw [hfind] at hn
      exact Program.mem_aliasesOf _ (Table.mem_entries_of_find? hfind) n hn

/-- The names that a script asks for: internal ones, the functions that the justfile calls, and the
variables that it exports. -/
inductive Asked (items : List Item) (p : Program) : String → Prop where
  | internal {n : String} (h : Internal n) : Asked items p n
  | called {e : Expr} {n : String} (he : e ∈ exprNodes items) (hn : e.function? = some n) : Asked items p n
  | exported {attributes : List String} {r : Recipe} {n : String} (hr : (attributes, r) ∈ recipesIn items)
      (hn : n ∈ Script.exportNames p r) : Asked items p n

theorem mem_exprNodes {items : List Item} {i : Item} (hi : i ∈ items) {e e' : Expr} (he : e ∈ i.declaration.exprs)
    (he' : e' ∈ e.nodes) : e' ∈ exprNodes items :=
  List.mem_flatMap.2 ⟨i, hi, List.mem_flatMap.2 ⟨e, he, he'⟩⟩

theorem Asked.of_exprs {items : List Item} {p : Program} {i : Item} (hi : i ∈ items) {e : Expr}
    (he : e ∈ i.declaration.exprs) : e.Asks (Asked items p) := by
  intro e' he' n hn
  rcases internal_or_called hn with hn | ⟨e'', he'', hn⟩
  · exact .internal hn
  · exact .called (mem_exprNodes hi he (Expr.nodes_subset he' he'')) hn

/-- The program and the script of some items, and the table of names that they leave. -/
structure Made (items : List Item) (p : Program) (s : Script) (u : Names) : Prop where
  program : p.From items
  script : s.Of u p
  settled : Settled u
  asked : ∀ n, Knows u n → Asked items p n
  tests : Helpers.Stem (openExprNodes items) u p.helpers
  detectors : ∀ i ∈ items, ∀ name, Helpers.detector? i.attributes = some name → p.helpers.contains name = true

/-- The table of names after the script of some items is made. -/
def namesAfter (edition : Edition) (outfile text : String) (items : List Item) (p : Program) : Names :=
  (Script.ofProgram edition outfile text p).table ((Program.ofItems items).table .empty)

/-- **A justfile that is compiled has a program and a script**, and all their parts have the names of the
table that is left at the end. -/
theorem made_of_compile {edition : Edition} {outfile text script : String} {items : List Item}
    (hparse : parse text = .ok items) (hscript : (compile edition outfile text).script = .ok script) :
    ∃ p s, (Program.ofItems items).result .empty = .ok p ∧
      (Script.ofProgram edition outfile text p).result ((Program.ofItems items).table .empty) = .ok s ∧
      s.text = script ∧ Made items p s (namesAfter edition outfile text items p) := by
  obtain ⟨p, s, hp, hs, htext⟩ := compile_eq_ok hparse hscript
  have hprogram := Program.assembled_of_ofItems hp
  have hfrom := Program.from_ofItems hp
  have hnamed := parse_named hparse
  have hfirst : Takes (Asked items p) (Helpers.ofItems items) fun u hs => Helpers.Stem (openExprNodes items) u hs :=
    Helpers.ofItems_takes fun i hi e he => Asked.of_exprs hi he
  have hsecond : Takes (Asked items p) (Script.ofProgram edition outfile text p) fun u s => s.Of u p := by
    refine Script.ofProgram_takes (fun n hn => .internal hn) edition outfile text ?_ ?_ ?_
    · intro e he
      rw [hfrom.values] at he
      obtain ⟨x, hx, rfl⟩ := List.mem_map.1 he
      obtain ⟨i, hi, he⟩ := exprs_of_mem_assignmentsIn (Program.mem_variablesOf x hx)
      exact (Asked.of_exprs hi he).self
    · intro i hi e he
      rw [hfrom.items] at hi
      exact (Asked.of_exprs hi he).self
    · intro i hi r hr v hv
      rw [hfrom.items] at hi
      exact .exported (List.mem_filterMap.2 ⟨i, hi, by rw [hr]⟩) hv
  have hwithin : Within ((Helpers.ofItems items).table .empty) (namesAfter edition outfile text items p) := by
    rw [← hprogram.table]
    exact hsecond.within _
  have hsettled : Settled (namesAfter edition outfile text items p) := by
    refine hsecond.settled _ ?_
    rw [hprogram.table]
    exact hfirst.settled .empty settled_empty
  refine ⟨p, s, hp, hs, htext, hfrom, hsecond.gives _ _ s hsettled (.refl _) hs, hsettled, fun n hn => ?_, ?_, ?_⟩
  · rcases hsecond.asked _ n hn with hn | hn
    · rw [hprogram.table] at hn
      rcases hfirst.asked .empty n hn with ⟨shell, hshell⟩ | hn
      · cases hshell
      · exact hn
    · exact hn
  · exact hfirst.gives .empty _ p.helpers hsettled hwithin hprogram.helpers
  · intro i hi name hname
    have houtcome := Helpers.ofItems_outcome hnamed (Helpers.settled_ofItems hnamed) (.refl _)
    rw [hprogram.helpers] at houtcome
    exact (houtcome.2.1 name).2 (.inr (List.mem_append_left _ (List.mem_filterMap.2 ⟨i, hi, hname⟩)))

/-- A recipe that does nothing. -/
def idleRecipe (name : String) : Recipe where
  echo := true
  name := name
  parameters := []
  variadic := none
  before := []
  after := []
  body := []

/-- A justfile has a script if it can be read, its settings stand, the functions it calls are known, and
its recipes are not repeated. -/
theorem compile_succeeds {date text : String} {items : List Item} {settings : Settings} {recipes : List String}
    (hdate : IsDate date) (hparse : parse text = .ok items) (hsettings : Settings.ofItems items = .ok settings)
    (hknown : ∀ e ∈ openExprNodes items, ∀ g ∈ e.function?, (Builtin.find? g).isSome = true)
    (hrecipes : Program.collectRecipes (settings.isGiven "allow-duplicate-recipes") [] items = .ok recipes) :
    ∃ script, (compile ⟨date, "unknown"⟩ "just.sh" text).script = .ok script := by
  obtain ⟨p, hp⟩ := (Program.ofItems_eq_ok_iff (parse_named hparse)).2
    ⟨settings, recipes, hsettings, fun e he g hg => Option.isSome_iff_ne_none.1 (hknown e he g hg), hrecipes⟩
  have hformed := parse_shaped Parsing.grammatical_formed hparse
  obtain ⟨s, hs⟩ := Script.ofProgram_succeeds text (Program.formed_of_ofItems hformed hp)
    (Script.bannerText_fits hdate) ((Program.ofItems items).table .empty)
  exact ⟨s.text, compile_eq_compileItems hparse ▸ (compileItems_eq_ok_iff hp).2 ⟨s, hs, rfl⟩⟩

namespace Script

/-- The functions of recipes, in order. -/
def functions (s : Script) : List RecipeFunction :=
  s.entries.filterMap fun
    | .recipe f => some f
    | _ => none

/-- The functions of aliases, in order. -/
def aliases (s : Script) : List AliasFunction :=
  s.entries.filterMap fun
    | .alias f => some f
    | _ => none

/-- The dispatchers, in order. -/
def dispatchers (s : Script) : List Dispatcher :=
  s.entries.filterMap fun
    | .dispatcher d => some d
    | _ => none

/-- The functions that are defined in the section of recipes. -/
def defined (s : Script) : List String :=
  s.entries.filterMap fun
    | .recipe f => some f.name
    | .alias f => some f.name
    | .dispatcher d => some d.name
    | .comment _ => none

/-- The variables that are assigned before a recipe runs. -/
def assigned (s : Script) : List String :=
  s.assignments.map (·.name)

end Script

section Views

variable {items : List Item} {p : Program} {s : Script} {u : Names}

/-- The functions of recipes are those of the items, in order. -/
theorem functions_of_rows {rows : List (List Script.Entry)} (h : List.Forall₂ (Script.Row u p) items rows) :
    List.Forall₂ (fun x f => f.Of u p x.1 x.2) (recipesIn items) (rows.flatten.filterMap fun
      | .recipe f => some f
      | _ => none) := by
  induction h with
  | nil => exact .nil
  | cons hrow _ ih =>
    cases hrow with
    | recipe hf => exact .cons hf ih
    | ofComment s => exact ih
    | ofAlias hname htarget => exact ih
    | none hrecipe halias =>
      rw [recipesIn_cons_of_ne hrecipe]
      exact ih

/-- The functions of aliases are those of the items, in order. -/
theorem aliases_of_rows {rows : List (List Script.Entry)} (h : List.Forall₂ (Script.Row u p) items rows) :
    List.Forall₂ (fun x f => u.find? f.name = some ("FUN_" ++ x.1) ∧ u.find? f.target = some ("FUN_" ++ x.2))
      (aliasesIn items) (rows.flatten.filterMap fun
        | .alias f => some f
        | _ => none) := by
  induction h with
  | nil => exact .nil
  | cons hrow _ ih =>
    cases hrow with
    | recipe hf => exact ih
    | ofComment s => exact ih
    | ofAlias hname htarget => exact .cons ⟨hname, htarget⟩ ih
    | none hrecipe halias =>
      rw [aliasesIn_cons_of_ne halias]
      exact ih

/-- Rows have no dispatchers. -/
theorem dispatchers_of_rows {rows : List (List Script.Entry)} (h : List.Forall₂ (Script.Row u p) items rows) :
    (rows.flatten.filterMap fun
      | .dispatcher d => some d
      | _ => none) = [] := by
  induction h with
  | nil => rfl
  | cons hrow _ ih =>
    cases hrow with
    | recipe hf | ofComment s | ofAlias hname htarget | none hrecipe halias => exact ih

/-- The dispatchers come after the rows, one for each name with platforms. -/
theorem entries_of_dispatches {choices : List (String × Table String)} {ds : List Script.Entry}
    (h : List.Forall₂ (Script.Dispatches u) choices ds) :
    ∃ dispatchers : List Script.Dispatcher, ds = dispatchers.map .dispatcher ∧
      List.Forall₂ (fun x d => u.find? d.name = some ("FUN_" ++ x.1) ∧
        List.Forall₂ (Script.Branch.Of u) x.2.entries d.branches) choices dispatchers := by
  induction h with
  | nil => exact ⟨[], rfl, .nil⟩
  | cons hd _ ih =>
    obtain ⟨dispatchers, rfl, hds⟩ := ih
    cases hd with
    | mk hname hbranches => exact ⟨_ :: dispatchers, rfl, .cons ⟨hname, hbranches⟩ hds⟩

namespace Made

variable (h : Made items p s u)

include h

theorem functions : List.Forall₂ (fun x f => f.Of u p x.1 x.2) (recipesIn items) s.functions := by
  obtain ⟨rows, ds, hentries, hrows, hds⟩ := h.script.entries
  obtain ⟨dispatchers, rfl, -⟩ := entries_of_dispatches hds
  have hnone : (dispatchers.map Script.Entry.dispatcher).filterMap (fun
      | .recipe f => some f
      | _ => none) = ([] : List Script.RecipeFunction) := by
    simp
  rw [h.program.items] at hrows
  unfold Script.functions
  rw [hentries, List.filterMap_append, hnone, List.append_nil]
  exact functions_of_rows hrows

theorem aliases : List.Forall₂ (fun x f => u.find? f.name = some ("FUN_" ++ x.1) ∧
    u.find? f.target = some ("FUN_" ++ x.2)) (aliasesIn items) s.aliases := by
  obtain ⟨rows, ds, hentries, hrows, hds⟩ := h.script.entries
  obtain ⟨dispatchers, rfl, -⟩ := entries_of_dispatches hds
  have hnone : (dispatchers.map Script.Entry.dispatcher).filterMap (fun
      | .alias f => some f
      | _ => none) = ([] : List Script.AliasFunction) := by
    simp
  rw [h.program.items] at hrows
  unfold Script.aliases
  rw [hentries, List.filterMap_append, hnone, List.append_nil]
  exact aliases_of_rows hrows

theorem dispatchers : List.Forall₂ (fun x d => u.find? d.name = some ("FUN_" ++ x.1) ∧
    List.Forall₂ (Script.Branch.Of u) x.2.entries d.branches)
    (Program.platformsOf items).entries s.dispatchers := by
  obtain ⟨rows, ds, hentries, hrows, hds⟩ := h.script.entries
  obtain ⟨dispatchers, rfl, hbranches⟩ := entries_of_dispatches hds
  rw [h.program.platforms] at hbranches
  have hall : (dispatchers.map Script.Entry.dispatcher).filterMap (fun
      | .dispatcher d => some d
      | _ => none) = dispatchers := by
    simp [List.filterMap_map]
  unfold Script.dispatchers
  rw [hentries, List.filterMap_append, dispatchers_of_rows hrows, List.nil_append, hall]
  exact hbranches

/-- **A branch of a dispatcher calls the function of a recipe** that has the dispatcher's name and the branch's
platform. -/
theorem branch {d : Script.Dispatcher} (hd : d ∈ s.dispatchers) {b : Script.Branch} (hb : b ∈ d.branches) :
    ∃ attributes r platform, ∃ f ∈ s.functions, (attributes, r) ∈ recipesIn items ∧ f.Of u p attributes r ∧
      platform ∈ Platform.ofAttributes attributes ∧ u.find? d.name = some ("FUN_" ++ r.name) ∧
      Script.Branch.Of u (platform.name, Platform.functionName r.name (Platform.ofAttributes attributes)) b ∧
      b.function = f.name := by
  obtain ⟨x, hx, hname, hbranches⟩ := exists_left_of_mem h.dispatchers d hd
  obtain ⟨y, hy, hbranch⟩ := exists_left_of_mem hbranches b hb
  obtain ⟨attributes, r, platform, hr, hrname, hplatform, rfl⟩ := Program.mem_platformsOf x hx y hy
  obtain ⟨f, hf, hof⟩ := exists_right_of_mem h.functions _ hr
  rw [← hrname] at hname
  exact ⟨attributes, r, platform, f, hf, hr, hof, hplatform, hname, hbranch,
    (h.settled.eq_iff hbranch.function hof.name).2 rfl⟩

end Made

end Views

end Justfile
