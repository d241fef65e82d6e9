import Justfile.Proofs.Meaning
import Justfile.Proofs.Stages

/-!
# Which helpers a script has

An expression calls shell functions: those of its calls, one for each conditional, and one that
reports failed commands. A program has exactly the helpers that its **open** nodes and its platform
attributes need, a node being open if it is not below the arguments of a call.

* `addExpr_adds`: what the helpers of one expression add.
* `ofItems_adds`: what those of a whole justfile add up to.
* `ofItems_eq_unknownFunction_iff`: when a justfile is refused for a function.
* `helpers_exact`: the helpers of every script, exactly.
-/

namespace Justfile

open Shell Shell.Names

namespace Expr

/-- The expressions in an expression that are not below the arguments of a call, with itself. -/
def openNodes : Expr → List Expr
  | .text s => [.text s]
  | .var name => [.var name]
  | .sum left right => .sum left right :: (openNodes left ++ openNodes right)
  | .path left right => .path left right :: (openNodes left ++ openNodes right)
  | .backtick command => [.backtick command]
  | .call name args => [.call name args]
  | .bareCall name => [.bareCall name]
  | .cond op left right yes no =>
    .cond op left right yes no ::
      (openNodes left ++ openNodes right ++ openNodes yes ++ openNodes no)
  | .looseCond test yes no => [.looseCond test yes no]
  | .stray datum => [.stray datum]

/-- The function that a node calls by the name it has in the justfile. -/
def function? : Expr → Option String
  | .call name _ => some name
  | .bareCall name => some name
  | _ => none

/-- The shell function behind a node, where `σ` gives shell names. -/
def helperName? (σ : String → String) : Expr → Option String
  | .call name _ => some name
  | .bareCall name => some name
  | .backtick _ => some Helper.backtickErrorName
  | .cond op left right yes no => some (σ (testName (.cond op left right yes no)))
  | _ => none

end Expr

/-- The open nodes in the items of a justfile. -/
def openExprNodes (items : List Item) : List Expr :=
  items.flatMap fun i => i.declaration.exprs.flatMap Expr.openNodes

theorem Table.contains_put {α : Type} (t : Table α) (key k : String) (value : α) :
    (t.put key value).contains k = true ↔ t.contains k = true ∨ k = key := by
  unfold Table.contains
  by_cases h : k = key
  · subst h; simp
  · rw [Table.find?_put_of_ne t value h]; simp [h]

theorem Table.mem_values_of_find? {α : Type} {t : Table α} {key : String} {value : α}
    (h : t.find? key = some value) : value ∈ t.values := by
  obtain ⟨before, after, hsplit, -⟩ := List.lookup_eq_some_iff.1 h
  unfold Table.values
  rw [hsplit]
  simp

/-- The text of the helper ends with a definition of the function `name`, on lines of its own. -/
def Helper.Defines (name : String) (h : Helper) : Prop :=
  ∃ before body, h.definition = before ++ Builtin.definition name body ∧
    (before = "" ∨ ∃ b, before = b ++ "\n")

/-- A text that is one definition. -/
theorem Helper.Defines.of_eq {name body : String} {h : Helper}
    (hd : h.definition = Builtin.definition name body) : h.Defines name :=
  ⟨"", body, by rw [hd, String.empty_append], .inl rfl⟩

/-- **Every function that expressions can call is defined under its name.** -/
theorem defines_of_find? {name d : String} (h : Builtin.find? name = some d) :
    (Helper.builtin d).Defines name := by
  have hall : ∀ p ∈ Builtin.definitions, (Helper.builtin p.2).Defines p.1 := by
    unfold Builtin.definitions
    simp only [List.forall_mem_cons]
    -- the text of `uuid` begins with the function that it calls
    have huuid : (Helper.builtin Builtin.uuid).Defines "uuid" :=
      ⟨Builtin.randomHexBytes ++ "\n", _, rfl, .inr ⟨_, rfl⟩⟩
    exact ⟨.of_eq rfl, .of_eq rfl, .of_eq rfl, .of_eq rfl, .of_eq rfl, .of_eq rfl, .of_eq rfl,
      .of_eq rfl, .of_eq rfl, .of_eq rfl, .of_eq rfl, .of_eq rfl, huuid, .of_eq rfl, .of_eq rfl,
      .of_eq rfl, .of_eq rfl, .of_eq rfl, .of_eq rfl, fun _ h => absurd h List.not_mem_nil⟩
  obtain ⟨before, after, hsplit, -⟩ := List.lookup_eq_some_iff.1 h
  exact hall (name, d) (by rw [hsplit]; simp)

/-- Every helper defines the function that it is found under. -/
def Helpers.Sound (hs : Helpers) : Prop :=
  ∀ name h, hs.find? name = some h → h.Defines name

theorem Helpers.Sound.put {hs : Helpers} (hs_sound : hs.Sound) {name : String} {h : Helper}
    (hd : h.Defines name) : Helpers.Sound (hs.put name h) := by
  intro other h' hfind
  by_cases ho : other = name
  · subst ho
    rw [Table.find?_put_self] at hfind
    cases hfind
    exact hd
  · rw [Table.find?_put_of_ne hs h ho] at hfind
    exact hs_sound other h' hfind

namespace Helpers

/-- What comes of adding to `hs` the helpers `keys`, which takes the functions `calls`: either all
of the functions are known and these are the new helpers, or one is not and is reported. -/
def Outcome (hs : Helpers) (keys calls : List String) : Except Failure Helpers → Prop
  | .ok hs' =>
    (∀ f ∈ calls, Builtin.find? f ≠ none) ∧
      (∀ k, hs'.contains k = true ↔ hs.contains k = true ∨ k ∈ keys) ∧ (hs.Sound → hs'.Sound)
  | .error f => ∃ g ∈ calls, Builtin.find? g = none ∧ f = .unknownFunction g

theorem Outcome.bind {hs : Helpers} {keys calls keys' calls' : List String}
    {r : Except Failure Helpers} {k : Helpers → Except Failure Helpers}
    (hr : Outcome hs keys calls r) (hk : ∀ hs', Outcome hs' keys' calls' (k hs')) :
    Outcome hs (keys ++ keys') (calls ++ calls') (r >>= k) := by
  cases r with
  | error f =>
    obtain ⟨g, hg, hf⟩ := hr
    exact ⟨g, List.mem_append_left _ hg, hf⟩
  | ok hs' =>
    -- what the first part has added is what the second starts from
    obtain ⟨hcalls, hkeys, hsound⟩ := hr
    have h' := hk hs'
    show Outcome hs (keys ++ keys') (calls ++ calls') (k hs')
    cases hs'' : k hs' with
    | error f =>
      rw [hs''] at h'
      obtain ⟨g, hg, hf⟩ := h'
      exact ⟨g, List.mem_append_right _ hg, hf⟩
    | ok final =>
      rw [hs''] at h'
      obtain ⟨hcalls', hkeys', hsound'⟩ := h'
      refine ⟨fun f hf => (List.mem_append.1 hf).elim (hcalls f) (hcalls' f), fun k => ?_,
        fun h => hsound' (hsound h)⟩
      rw [hkeys', hkeys, List.mem_append, or_assoc]

/-- `m` adds to `hs` the helpers `keys`, which depend on the names in any later table, and takes the
functions `calls`. -/
def Adds (m : Naming Helpers) (hs : Helpers) (keys : (String → String) → List String)
    (calls : List String) : Prop :=
  ∃ f, Follows m f ∧ ∀ u : Names, Outcome hs (keys u.shellName) calls (f u.shellName)

namespace Adds

variable {m : Naming Helpers} {hs : Helpers} {keys keys' : (String → String) → List String}
  {calls calls' : List String}

theorem none (hs : Helpers) : Adds (pure hs) hs (fun _ => []) [] := by
  refine ⟨_, .pure hs, fun u => ⟨fun f hf => absurd hf List.not_mem_nil, fun k => ?_, id⟩⟩
  simp

/-- A helper that takes no function. -/
theorem put {name : String} {h : Helper} (hs : Helpers) (hd : h.Defines name) :
    Adds (pure (hs.put name h)) hs (fun _ => [name]) [] := by
  refine ⟨_, .pure _, fun u => ⟨fun f hf => absurd hf List.not_mem_nil, fun k => ?_, ?_⟩⟩
  · rw [Table.contains_put, List.mem_singleton]
  · exact fun hsound => hsound.put hd

theorem bind {k : Helpers → Naming Helpers} (hm : Adds m hs keys calls)
    (hk : ∀ hs', Adds (k hs') hs' keys' calls') :
    Adds (m >>= k) hs (fun σ => keys σ ++ keys' σ) (calls ++ calls') := by
  obtain ⟨f, hf, hout⟩ := hm
  choose g hg hout' using hk
  exact ⟨_, hf.bind hg, fun u => (hout u).bind fun hs' => hout' hs' u⟩

/-- The order of what is added does not matter. -/
theorem congr (hm : Adds m hs keys calls) (hkeys : ∀ σ k, k ∈ keys σ ↔ k ∈ keys' σ)
    (hcalls : ∀ f, f ∈ calls ↔ f ∈ calls') : Adds m hs keys' calls' := by
  obtain ⟨f, hf, hout⟩ := hm
  refine ⟨f, hf, fun u => ?_⟩
  have h := hout u
  cases hr : f u.shellName with
  | error e =>
    rw [hr] at h
    obtain ⟨g, hg, he⟩ := h
    exact ⟨g, (hcalls g).1 hg, he⟩
  | ok hs' =>
    rw [hr] at h
    obtain ⟨h₁, h₂, h₃⟩ := h
    exact ⟨fun g hg => h₁ g ((hcalls g).2 hg), fun k => by rw [h₂, hkeys], h₃⟩

end Adds

theorem addBuiltin_adds (hs : Helpers) (name : String) :
    Adds (hs.addBuiltin name) hs (fun _ => [name]) [name] := by
  unfold addBuiltin
  cases h : Builtin.find? name with
  | none =>
    refine ⟨_, .throw _, fun u => ⟨name, List.mem_singleton_self name, h, rfl⟩⟩
  | some d =>
    obtain ⟨f, hf, hout⟩ := Adds.put hs (defines_of_find? h)
    refine ⟨f, hf, fun u => ?_⟩
    have hput := hout u
    cases hr : f u.shellName with
    | error e => rw [hr] at hput; obtain ⟨g, hg, -⟩ := hput; cases hg
    | ok hs' =>
      rw [hr] at hput
      refine ⟨fun g hg => ?_, hput.2⟩
      rw [List.mem_singleton.1 hg, h]
      exact Option.some_ne_none d

/-- A named expression has a word, whatever the names. -/
theorem wordOf_ok (u : Names) {e : Expr} (he : e.Named) : ∃ w, wordOf u.shellName e = .ok w := by
  obtain ⟨w, hw, -⟩ := wordOf_named (fun n hn => isShellName_shellName u hn) e he
  exact ⟨w, hw⟩

/-- The function of a conditional comes under the name that the conditional calls. -/
theorem test_adds (hs : Helpers) (name : String) (op : Comparison) {left right yes no : Expr}
    (hleft : left.Named) (hright : right.Named) (hyes : yes.Named) (hno : no.Named) :
    Adds (do
      let name ← cleanName name
      let left ← evaluate left
      let right ← evaluate right
      let yes ← evaluate yes
      let no ← evaluate no
      pure (hs.put name (.test ⟨name, op, left, right, yes, no⟩)))
      hs (fun σ => [σ name]) [] := by
  refine ⟨_, (Follows.cleanName name).bind fun _ => (evaluate_follows left).bind fun _ =>
    (evaluate_follows right).bind fun _ => (evaluate_follows yes).bind fun _ =>
    (evaluate_follows no).bind fun _ => .pure _, fun u => ?_⟩
  obtain ⟨l, hl⟩ := wordOf_ok u hleft
  obtain ⟨r, hr⟩ := wordOf_ok u hright
  obtain ⟨y, hy⟩ := wordOf_ok u hyes
  obtain ⟨n, hn⟩ := wordOf_ok u hno
  simp only [hl, hr, hy, hn]
  refine ⟨fun f hf => absurd hf List.not_mem_nil, fun k => ?_, fun hsound => ?_⟩
  · rw [Table.contains_put, List.mem_singleton]
  · exact hsound.put (.of_eq rfl)

/-- The helpers of two operands, one after the other. -/
theorem operands_adds {left right e : Expr} (hs : Helpers)
    (hleft : ∀ hs : Helpers, Adds (hs.addExpr left) hs
      (fun σ => left.openNodes.filterMap (Expr.helperName? σ)) (left.openNodes.filterMap Expr.function?))
    (hright : ∀ hs : Helpers, Adds (hs.addExpr right) hs
      (fun σ => right.openNodes.filterMap (Expr.helperName? σ)) (right.openNodes.filterMap Expr.function?))
    (hnodes : e.openNodes = e :: (left.openNodes ++ right.openNodes))
    (hkey : ∀ σ, e.helperName? σ = .none) (hcall : e.function? = .none) :
    Adds (hs.addExpr left >>= fun hs => hs.addExpr right) hs
      (fun σ => e.openNodes.filterMap (Expr.helperName? σ)) (e.openNodes.filterMap Expr.function?) := by
  refine ((hleft hs).bind hright).congr (fun σ k => ?_) fun f => ?_
  · rw [hnodes, List.filterMap_cons_none (hkey σ), List.filterMap_append]
  · rw [hnodes, List.filterMap_cons_none hcall, List.filterMap_append]

/-- **What the helpers of an expression add**: those behind its open nodes. -/
theorem addExpr_adds : ∀ (e : Expr), e.Named → ∀ hs : Helpers,
    Adds (hs.addExpr e) hs (fun σ => e.openNodes.filterMap (Expr.helperName? σ))
      (e.openNodes.filterMap Expr.function?)
  | .text _, _, hs => by rw [addExpr]; exact .none hs
  | .var _, _, hs => by rw [addExpr]; exact .none hs
  | .sum left right, he, hs => by
    rw [Expr.Named] at he
    rw [addExpr]
    exact operands_adds hs (addExpr_adds left he.1) (addExpr_adds right he.2)
      (by rw [Expr.openNodes]) (fun _ => rfl) rfl
  | .path left right, he, hs => by
    rw [Expr.Named] at he
    rw [addExpr]
    exact operands_adds hs (addExpr_adds left he.1) (addExpr_adds right he.2)
      (by rw [Expr.openNodes]) (fun _ => rfl) rfl
  | .backtick _, _, hs => by
    rw [addExpr]
    exact .put hs (.of_eq rfl)
  | .call name _, _, hs => by rw [addExpr]; exact addBuiltin_adds hs name
  | .bareCall name, _, hs => by rw [addExpr]; exact addBuiltin_adds hs name
  | .cond op left right yes no, he, hs => by
    rw [Expr.Named] at he
    obtain ⟨hleft, hright, hyes, hno⟩ := he
    have h := (addExpr_adds left hleft hs).bind fun hs' =>
      (addExpr_adds right hright hs').bind fun hs' =>
      (addExpr_adds yes hyes hs').bind fun hs' =>
      (addExpr_adds no hno hs').bind fun hs' =>
      test_adds hs' (testName (.cond op left right yes no)) op hleft hright hyes hno
    rw [addExpr]
    -- the conditional is first among its nodes, but its function comes last
    refine h.congr (fun σ k => ?_) fun f => ?_
    · simp only [Expr.openNodes, List.filterMap_cons, Expr.helperName?, List.filterMap_append,
        List.mem_append, List.mem_cons, List.not_mem_nil, or_false]
      tauto
    · simp only [Expr.openNodes, List.filterMap_cons, Expr.function?, List.filterMap_append,
        List.mem_append, List.not_mem_nil, or_false]
      tauto
  | .looseCond _ _ _, he, _ => by rw [Expr.Named] at he; exact he.elim
  | .stray _, he, _ => by rw [Expr.Named] at he; exact he.elim

/-- Helpers added one after the other. -/
theorem foldlM_adds {α : Type} {step : Helpers → α → Naming Helpers}
    {keys : (String → String) → α → List String} {calls : α → List String} (l : List α)
    (hstep : ∀ a ∈ l, ∀ hs, Adds (step hs a) hs (fun σ => keys σ a) (calls a)) (hs : Helpers) :
    Adds (l.foldlM step hs) hs (fun σ => l.flatMap (keys σ)) (l.flatMap calls) := by
  induction l generalizing hs with
  | nil => exact .none hs
  | cons a l ih =>
    rw [List.foldlM_cons]
    simp only [List.flatMap_cons]
    exact (hstep a List.mem_cons_self hs).bind
      (ih fun b hb => hstep b (List.mem_cons_of_mem a hb))

/-- **What a justfile's helpers are**: those that tell its platforms, and those behind its open
nodes. -/
theorem ofItems_adds {items : List Item} (h : ∀ i ∈ items, ∀ e ∈ i.declaration.exprs, e.Named) :
    Adds (ofItems items) .empty
      (fun σ => (items.filterMap fun i => detector? i.attributes) ++
        (openExprNodes items).filterMap (Expr.helperName? σ))
      ((items.filterMap fun i => detector? i.attributes) ++
        (openExprNodes items).filterMap Expr.function?) := by
  have hplatforms := foldlM_adds (items.filterMap fun i => detector? i.attributes)
    (fun name _ hs => addBuiltin_adds hs name) .empty
  have hexprs := fun hs => foldlM_adds items (fun i hi hs =>
    foldlM_adds i.declaration.exprs (fun e he hs => addExpr_adds e (h i hi e he) hs) hs) hs
  refine (hplatforms.bind hexprs).congr (fun σ k => ?_) fun f => ?_
  · simp [openExprNodes, List.filterMap_flatMap]
  · simp [openExprNodes, List.filterMap_flatMap]

/-- The functions that tell platforms are known. -/
theorem find?_detector {attributes : List String} {name : String}
    (h : detector? attributes = some name) : Builtin.find? name ≠ .none := by
  unfold detector? at h
  simp only at h
  split at h
  · cases h; exact Option.some_ne_none Builtin.os
  · split at h
    · cases h
    · cases h; exact Option.some_ne_none Builtin.osFamily

/-- The outcome for a justfile, with the names of any settled table that has those taken for it. -/
theorem ofItems_outcome {items : List Item} (h : ∀ i ∈ items, ∀ e ∈ i.declaration.exprs, e.Named)
    {u : Names} (hu : Settled u) (hw : Within ((ofItems items).table .empty) u) :
    Outcome .empty
      ((items.filterMap fun i => detector? i.attributes) ++
        (openExprNodes items).filterMap (Expr.helperName? u.shellName))
      ((items.filterMap fun i => detector? i.attributes) ++
        (openExprNodes items).filterMap Expr.function?) ((ofItems items).result .empty) := by
  obtain ⟨f, hf, hout⟩ := ofItems_adds h
  rw [hf.result .empty u hu hw]
  exact hout u

theorem settled_ofItems {items : List Item} (h : ∀ i ∈ items, ∀ e ∈ i.declaration.exprs, e.Named) :
    Settled ((ofItems items).table .empty) := by
  obtain ⟨f, hf, -⟩ := ofItems_adds h
  exact hf.settled .empty settled_empty

/-- The helpers fail just if an open node calls an unknown function, and they say so. -/
theorem ofItems_error_iff {items : List Item} (h : ∀ i ∈ items, ∀ e ∈ i.declaration.exprs, e.Named) :
    (∃ f, (ofItems items).result .empty = .error (.unknownFunction f)) ↔
      ∃ e ∈ openExprNodes items, ∃ f, e.function? = some f ∧ Builtin.find? f = .none := by
  have hout := ofItems_outcome h (settled_ofItems h) (.refl _)
  cases hr : (ofItems items).result .empty with
  | error f =>
    rw [hr] at hout
    obtain ⟨g, hg, hnone, rfl⟩ := hout
    refine ⟨fun _ => ?_, fun _ => ⟨g, rfl⟩⟩
    -- it cannot be the function that tells a platform
    rcases List.mem_append.1 hg with hg | hg
    · obtain ⟨i, -, hi⟩ := List.mem_filterMap.1 hg
      exact absurd hnone (find?_detector hi)
    · obtain ⟨e, he, hf⟩ := List.mem_filterMap.1 hg
      exact ⟨e, he, g, hf, hnone⟩
  | ok hs =>
    rw [hr] at hout
    constructor
    · rintro ⟨f, hf⟩
      cases hf
    · rintro ⟨e, he, f, hf, hnone⟩
      exact absurd hnone (hout.1 f (List.mem_append_right _ (List.mem_filterMap.2 ⟨e, he, hf⟩)))

end Helpers

theorem Settings.collect_error {s : Settings} {items : List Item} {f : Failure}
    (h : s.collect items = .error f) : ∃ name, f = .settingRepeated name := by
  fun_induction Settings.collect s items with
  | case1 => cases h
  | case2 => cases h; exact ⟨_, rfl⟩
  | case3 _ _ _ _ _ _ ih => exact ih h
  | case4 _ _ _ _ ih => exact ih h

theorem Settings.check_error {s : Settings} {f : Failure} (h : s.check = .error f) :
    f = .windowsUnsupported ∨ f = .shellTooShort := by
  unfold Settings.check at h
  by_cases hw : (s.isGiven "windows-shell" || s.isGiven "windows-powershell") = true
  · rw [if_pos hw] at h; cases h; exact .inl rfl
  · rw [if_neg hw] at h
    split at h
    · cases h; exact .inr rfl
    · cases h

/-- What settings are refused for. -/
theorem Settings.ofItems_error {items : List Item} {f : Failure} (h : Settings.ofItems items = .error f) :
    (∃ name, f = .settingRepeated name) ∨ f = .windowsUnsupported ∨ f = .shellTooShort := by
  unfold Settings.ofItems at h
  cases hc : Settings.collect .empty items with
  | error g => rw [hc] at h; cases h; exact .inl (collect_error hc)
  | ok s =>
    rw [hc] at h
    cases hk : s.check with
    | error g => simp only [bind, Except.bind, hk] at h; cases h; exact .inr (check_error hk)
    | ok _ => simp only [bind, Except.bind, hk] at h; cases h

/-- Recipes are refused for one reason. -/
theorem Program.collectRecipes_error {duplicates : Bool} {found : List String} {items : List Item}
    {f : Failure} (h : Program.collectRecipes duplicates found items = .error f) : f = .recipeRepeated := by
  fun_induction Program.collectRecipes duplicates found items with
  | case1 => cases h
  | case2 => cases h; rfl
  | case3 _ _ _ _ _ ih => exact ih h
  | case4 _ _ _ _ ih => exact ih h

namespace Program

variable {items : List Item}

/-- What a justfile declares is settled in three steps: settings, helpers, recipes. -/
theorem ofItems_result {s : Settings} (hs : Settings.ofItems items = .ok s) :
    (ofItems items).table .empty = (Helpers.ofItems items).table .empty ∧
      match (Helpers.ofItems items).result .empty with
      | .error f => (ofItems items).result .empty = .error f
      | .ok helpers =>
        match collectRecipes (s.isGiven "allow-duplicate-recipes") [] items with
        | .error f => (ofItems items).result .empty = .error f
        | .ok _ => ∃ p, (ofItems items).result .empty = .ok p ∧ p.helpers = helpers := by
  have hset : (Naming.ofExcept (Settings.ofItems items)).result .empty = .ok s := hs
  unfold ofItems
  rw [(Naming.bind_of_ok _ hset).1, (Naming.bind_of_ok _ hset).2]
  -- a result of settings or recipes takes no names, so the table is that of the helpers
  have htable : (Naming.ofExcept (Settings.ofItems items)).table .empty = .empty := rfl
  rw [htable]
  cases hr : (Helpers.ofItems items).result .empty with
  | error f => exact Naming.bind_of_error _ hr
  | ok helpers =>
    rw [(Naming.bind_of_ok _ hr).1, (Naming.bind_of_ok _ hr).2]
    cases hc : collectRecipes (s.isGiven "allow-duplicate-recipes") [] items with
    | error f => exact Naming.bind_of_error _ hc
    | ok recipes =>
      have hrec : (Naming.ofExcept (collectRecipes (s.isGiven "allow-duplicate-recipes") [] items)
        ).result ((Helpers.ofItems items).table .empty) = .ok recipes := hc
      refine ⟨(Naming.bind_of_ok _ hrec).1, _, (Naming.bind_of_ok _ hrec).2, rfl⟩

/-- **A justfile is refused for a function** just if its settings are not refused and an open node
calls a function that is not known. -/
theorem ofItems_eq_unknownFunction_iff (h : ∀ i ∈ items, ∀ e ∈ i.declaration.exprs, e.Named) :
    (∃ f, (ofItems items).result .empty = .error (.unknownFunction f)) ↔
      (∃ s, Settings.ofItems items = .ok s) ∧
        ∃ e ∈ openExprNodes items, ∃ f, e.function? = some f ∧ Builtin.find? f = none := by
  rw [← Helpers.ofItems_error_iff h]
  cases hs : Settings.ofItems items with
  | error g =>
    have hset : (Naming.ofExcept (Settings.ofItems items)).result .empty = .error g := hs
    have hres : (ofItems items).result .empty = .error g := (Naming.bind_of_error _ hset).2
    constructor
    · rintro ⟨f, hf⟩
      rw [hres] at hf
      cases hf
      rcases Settings.ofItems_error hs with ⟨_, hf⟩ | hf | hf <;> cases hf
    · rintro ⟨⟨s, hs'⟩, -⟩
      cases hs'
  | ok s =>
    have hsteps := (ofItems_result hs).2
    cases hr : (Helpers.ofItems items).result .empty with
    | error g =>
      rw [hr] at hsteps
      rw [show (ofItems items).result .empty = .error g from hsteps]
      constructor
      · rintro ⟨f, hf⟩
        cases hf
        exact ⟨⟨s, rfl⟩, f, rfl⟩
      · rintro ⟨-, f, hf⟩
        cases hf
        exact ⟨f, rfl⟩
    | ok helpers =>
      rw [hr] at hsteps
      refine ⟨fun ⟨f, hf⟩ => ?_, fun ⟨_, f, hf⟩ => by cases hf⟩
      simp only at hsteps
      split at hsteps
      · rename_i g hc
        rw [hsteps] at hf
        cases hf
        cases collectRecipes_error hc
      · obtain ⟨p, hp, -⟩ := hsteps
        rw [hp] at hf
        cases hf

end Program

/-- **The helpers of a justfile, exactly.** A justfile is refused for an unknown function just if
its settings stand and an open node calls one. If it is compiled, its script has a helper just for
what the open nodes and the platform attributes need, under the names that any later table gives.
So a node below the arguments of a call has its helper just if something else needs the same one,
and an unknown function there is not reported. -/
theorem helpers_exact {text : String} {items : List Item} (h : parse text = .ok items) :
    ((∃ f, (Program.ofItems items).result .empty = .error (.unknownFunction f)) ↔
      (∃ s, Settings.ofItems items = .ok s) ∧
        ∃ e ∈ openExprNodes items, ∃ f, e.function? = some f ∧ Builtin.find? f = none) ∧
    ∀ edition outfile script, (compile edition outfile text).script = .ok script →
      ∃ p s, (Program.ofItems items).result .empty = .ok p ∧
        (Script.ofProgram edition outfile text p).result ((Program.ofItems items).table .empty) =
          .ok s ∧
        s.text = script ∧
        (∀ k helper, p.helpers.find? k = some helper → helper ∈ s.helpers ∧ helper.Defines k) ∧
        ∀ u, Settled u → Within ((Program.ofItems items).table .empty) u → ∀ k,
          p.helpers.contains k = true ↔
            (∃ e ∈ openExprNodes items, e.helperName? u.shellName = some k) ∨
              ∃ i ∈ items, Helpers.detector? i.attributes = some k := by
  have hnamed := parse_named h
  refine ⟨Program.ofItems_eq_unknownFunction_iff hnamed, fun edition outfile script hscript => ?_⟩
  obtain ⟨p, s, hp, hs, htext⟩ := compile_eq_ok h hscript
  have hprogram := Program.assembled_of_ofItems hp
  have hsound : p.helpers.Sound := by
    have hout := Helpers.ofItems_outcome hnamed (Helpers.settled_ofItems hnamed) (.refl _)
    rw [hprogram.helpers] at hout
    exact hout.2.2 fun k helper hfind => by cases hfind
  refine ⟨p, s, hp, hs, htext, fun k helper hfind => ⟨?_, hsound k helper hfind⟩, fun u hu hw k => ?_⟩
  · rw [(Script.assembled_of_ofProgram hs).helpers]
    exact Table.mem_values_of_find? hfind
  -- any later table gives the names that the helpers were put under
  · have hout := Helpers.ofItems_outcome hnamed hu (hprogram.table ▸ hw)
    rw [hprogram.helpers] at hout
    have hempty : ¬ (Table.empty : Helpers).contains k = true := by
      intro hc; cases hc
    rw [hout.2.1 k, or_iff_right hempty, List.mem_append, List.mem_filterMap, List.mem_filterMap,
      or_comm]

/-- A justfile with an unknown function inside the arguments of a call. -/
def hiddenCall : String := "x := uppercase(nope(\"a\"))"

/-- What it declares. -/
def hiddenCallItems : List Item :=
  [⟨[], .assignment "x" (.call "uppercase" [.call "nope" [.text "a"]])⟩]

theorem helpers_exact_hiddenCall :
    parse hiddenCall = .ok hiddenCallItems ∧
      (∃ e ∈ exprNodes hiddenCallItems, e.function? = some "nope" ∧ Builtin.find? "nope" = none) ∧
      (¬ ∃ f, (Program.ofItems hiddenCallItems).result .empty = .error (.unknownFunction f)) ∧
      ∃ script p, (compile ⟨"2000-01-02", "unknown"⟩ "just.sh" hiddenCall).script = .ok script ∧
        (Program.ofItems hiddenCallItems).result .empty = .ok p ∧
        p.helpers.contains "uppercase" = true ∧ ¬ p.helpers.contains "nope" = true := by
  have hparse : parse hiddenCall = .ok hiddenCallItems := rfl
  have hopen : openExprNodes hiddenCallItems =
      [.call "uppercase" [.call "nope" [.text "a"]]] := rfl
  have hcompiled : (compile ⟨"2000-01-02", "unknown"⟩ "just.sh" hiddenCall).script.isOk = true := by
    decide +kernel
  obtain ⟨hunknown, hexact⟩ := helpers_exact hparse
  refine ⟨hparse, ⟨.call "nope" [.text "a"], by decide, rfl, by decide⟩, ?_, ?_⟩
  · rw [hunknown, hopen]
    rintro ⟨-, e, he, f, hf, hnone⟩
    rw [List.mem_singleton.1 he] at hf
    cases hf
    exact absurd hnone (by decide)
  · cases hscript : (compile ⟨"2000-01-02", "unknown"⟩ "just.sh" hiddenCall).script with
    | error f => rw [hscript] at hcompiled; cases hcompiled
    | ok script =>
      obtain ⟨p, s, hp, -, -, -, hkeys⟩ := hexact _ _ script hscript
      have hsettled := Helpers.settled_ofItems (parse_named hparse)
      rw [← (Program.assembled_of_ofItems hp).table] at hsettled
      have hkeys := hkeys _ hsettled (.refl _)
      refine ⟨script, p, rfl, hp, (hkeys _).2 (.inl ?_), fun hnope => ?_⟩
      · rw [hopen]
        exact ⟨_, List.mem_singleton_self _, rfl⟩
      · rw [hkeys, hopen] at hnope
        rcases hnope with ⟨e, he, hk⟩ | ⟨i, hi, hk⟩
        · rw [List.mem_singleton.1 he] at hk
          exact absurd (Option.some.inj hk) (by decide)
        · rw [List.mem_singleton.1 hi] at hk
          cases hk

end Justfile
