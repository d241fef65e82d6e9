import Justfile.Proofs.Scripts

/-!
# What computations take from the table of names

A script is made by one long computation with the table of names. A shell name that comes up on the way
stands for the name it was asked for in every later table, so what the parts of a script have to do with
each other can be read off the table at the end.

* `Takes A m P`: `m` asks for names of `A` only, and `P` holds of what it gives in every later table.
  There is a rule for each way to build a computation.
* `evaluate_takes`: the word of an expression.
* `Helpers.ofItems_takes`: the functions of conditionals are those of open nodes.
-/

namespace Justfile

namespace Shell

open Names

variable {α β : Type}

/-- `m` asks for names of `A` only, keeps entries and settled tables, and `P` holds of what it gives in
every settled table that has all entries `m` leaves. -/
structure Takes (A : String → Prop) (m : Naming α) (P : Names → α → Prop) : Prop where
  within : ∀ t, Within t (m.table t)
  settled : ∀ t, Settled t → Settled (m.table t)
  asked : ∀ t n, Knows (m.table t) n → Knows t n ∨ A n
  gives : ∀ t u a, Settled u → Within (m.table t) u → m.result t = .ok a → P u a

namespace Takes

variable {A : String → Prop} {m : Naming α} {P Q : Names → α → Prop} {R : Names → β → Prop}

theorem mono (h : Takes A m P) (hQ : ∀ u a, P u a → Q u a) : Takes A m Q :=
  ⟨h.within, h.settled, h.asked, fun t u a hu hw ha => hQ u a (h.gives t u a hu hw ha)⟩

/-- What follows the names of a table. -/
theorem of_follows {f : (String → String) → Except Failure α} (h : Takes A m P) (hf : Follows m f) :
    Takes A m fun u a => f u.shellName = .ok a :=
  ⟨h.within, h.settled, h.asked, fun t u a hu hw ha => by rw [← hf.result t u hu hw, ha]⟩

theorem pure {a : α} (h : ∀ u, P u a) : Takes A (Pure.pure a) P := by
  refine ⟨fun t => .refl t, fun _ ht => ht, fun _ _ hn => .inl hn, fun t u b _ _ hb => ?_⟩
  cases hb
  exact h u

theorem throw (f : Failure) : Takes A (MonadExcept.throw f : Naming α) P :=
  ⟨fun t => .refl t, fun _ ht => ht, fun _ _ hn => .inl hn, fun _ _ _ _ _ hb => by cases hb⟩

/-- A result that takes no names. -/
theorem ofExcept (r : Except Failure α) : Takes A (Naming.ofExcept r) fun _ a => r = .ok a :=
  ⟨fun t => .refl t, fun _ ht => ht, fun _ _ hn => .inl hn, fun _ _ _ _ _ ha => ha⟩

/-- The shell name stands for the name it was asked for. -/
theorem cleanName {name : String} (h : A name) :
    Takes A (cleanName name) fun u shell => u.find? shell = some name := by
  refine ⟨fun t => within_clean t name, fun t ht => ht.clean name, fun t n hn => ?_, ?_⟩
  · obtain ⟨shell, hs⟩ := hn
    change (t.clean name).2.find? shell = some n at hs
    by_cases hshell : shell = t.shellName name
    · rw [hshell, find?_clean_self] at hs
      cases hs
      exact .inr h
    · rw [find?_clean_of_ne t name hshell] at hs
      exact .inl ⟨shell, hs⟩
  · intro t u shell _ hw ha
    cases ha
    exact hw _ _ (find?_clean_self t name)

/-- **One computation after the other.** -/
theorem bind {k : α → Naming β} (hm : Takes A m P) (hk : ∀ a, Takes A (k a) fun u b => P u a → R u b) :
    Takes A (m >>= k) R := by
  refine ⟨fun t => ?_, fun t ht => ?_, fun t n hn => ?_, fun t u b hu hw hb => ?_⟩
  · cases hr : m.result t with
    | error e =>
      rw [(Naming.bind_of_error k hr).1]
      exact hm.within t
    | ok a =>
      rw [(Naming.bind_of_ok k hr).1]
      exact (hm.within t).trans ((hk a).within _)
  · cases hr : m.result t with
    | error e =>
      rw [(Naming.bind_of_error k hr).1]
      exact hm.settled t ht
    | ok a =>
      rw [(Naming.bind_of_ok k hr).1]
      exact (hk a).settled _ (hm.settled t ht)
  · cases hr : m.result t with
    | error e =>
      rw [(Naming.bind_of_error k hr).1] at hn
      exact hm.asked t n hn
    | ok a =>
      rw [(Naming.bind_of_ok k hr).1] at hn
      rcases (hk a).asked _ n hn with hn | hn
      · exact hm.asked t n hn
      · exact .inr hn
  · obtain ⟨a, ha, hkb, ht⟩ := Naming.bind_eq_ok hb
    rw [ht] at hw
    exact (hk a).gives _ u b hu hw hkb (hm.gives t u a hu (((hk a).within _).trans hw) ha)

theorem map (hm : Takes A m P) {g : α → β} (hg : ∀ u a, P u a → R u (g a)) : Takes A (g <$> m) R := by
  rw [map_eq_pure_bind]
  exact hm.bind fun a => .pure fun u => hg u a

/-- A computation for each member of a list. -/
theorem mapM {f : α → Naming β} {l : List α} {P : α → Names → β → Prop} (h : ∀ a ∈ l, Takes A (f a) (P a)) :
    Takes A (l.mapM f) fun u bs => List.Forall₂ (fun a b => P a u b) l bs := by
  induction l with
  | nil => exact .pure fun _ => .nil
  | cons a l ih =>
    rw [List.mapM_cons]
    refine (h a List.mem_cons_self).bind fun b => ?_
    refine (ih fun a' ha' => h a' (List.mem_cons_of_mem a ha')).bind fun bs => .pure fun u hbs hb => ?_
    exact .cons hb hbs

/-- An invariant that each step keeps. -/
theorem foldlM {f : β → α → Naming β} {l : List α} {I : Names → β → Prop}
    (h : ∀ a ∈ l, ∀ b, Takes A (f b a) fun u b' => I u b → I u b') (b : β) :
    Takes A (l.foldlM f b) fun u b' => I u b → I u b' := by
  induction l generalizing b with
  | nil => exact .pure fun _ hb => hb
  | cons a l ih =>
    rw [List.foldlM_cons]
    refine (h a List.mem_cons_self b).bind fun b' => ?_
    refine (ih (fun a' ha' => h a' (List.mem_cons_of_mem a ha')) b').mono fun u b'' hstep hb' hb => ?_
    exact hstep (hb' hb)

end Takes

section Words

variable {A : String → Prop}

mutual

theorem evaluate_asks : ∀ {e : Expr}, (∀ n ∈ namesIn e, A n) → Takes A (evaluate e) fun _ _ => True
  | .text s, _ => by rw [evaluate]; exact .pure fun _ => trivial
  | .var name, h => by
    rw [evaluate]
    exact (Takes.cleanName (h _ (by rw [namesIn]; exact List.mem_singleton_self _))).map fun _ _ _ => trivial
  | .sum left right, h => by
    rw [namesIn, List.forall_mem_append] at h
    rw [evaluate]
    exact (evaluate_asks h.1).bind fun _ => (evaluate_asks h.2).bind fun _ => .pure fun _ _ _ => trivial
  | .path left right, h => by
    rw [namesIn, List.forall_mem_append] at h
    rw [evaluate]
    exact (evaluate_asks h.1).bind fun _ => (evaluate_asks h.2).bind fun _ => .pure fun _ _ _ => trivial
  | .backtick command, _ => by rw [evaluate]; exact .pure fun _ => trivial
  | .call name args, h => by
    rw [namesIn, List.forall_mem_append] at h
    rw [evaluate]
    refine (evaluateAll_asks h.1).bind fun _ => ?_
    exact (Takes.cleanName (h.2 name (List.mem_singleton_self name))).bind fun _ => .pure fun _ _ _ => trivial
  | .bareCall name, h => by
    rw [evaluate]
    refine (Takes.cleanName (h name ?_)).bind fun _ => .pure fun _ _ => trivial
    rw [namesIn]
    exact List.mem_singleton_self name
  | .cond op left right yes no, h => by
    rw [evaluate]
    refine (Takes.cleanName (h _ ?_)).map fun _ _ _ => trivial
    rw [namesIn]
    exact List.mem_singleton_self _
  | .looseCond test yes no, h => by
    rw [evaluate]
    refine (Takes.cleanName (h _ ?_)).map fun _ _ _ => trivial
    rw [namesIn]
    exact List.mem_singleton_self _
  | .stray datum, _ => by rw [evaluate]; exact .throw _

theorem evaluateAll_asks : ∀ {es : List Expr}, (∀ n ∈ namesInAll es, A n) →
    Takes A (evaluateAll es) fun _ _ => True
  | [], _ => by rw [evaluateAll]; exact .pure fun _ => trivial
  | e :: rest, h => by
    rw [namesInAll, List.forall_mem_append] at h
    rw [evaluateAll]
    exact (evaluate_asks h.1).bind fun _ => (evaluateAll_asks h.2).bind fun _ => .pure fun _ _ _ => trivial

end

/-- The word of an expression in a table that knows all its names. -/
structure IsWord (u : Names) (e : Expr) (w : Word) : Prop where
  word : wordOf u.shellName e = .ok w
  known : ∀ n ∈ namesIn e, Knows u n

/-- **Evaluation gives the word of the expression in every later table.** -/
theorem evaluate_takes {e : Expr} (h : ∀ n ∈ namesIn e, A n) :
    Takes A (evaluate e) fun u w => IsWord u e w := by
  have hfollows := (evaluate_asks h).of_follows (evaluate_follows e)
  refine ⟨hfollows.within, hfollows.settled, hfollows.asked, fun t u w hu hw hr => ?_⟩
  exact ⟨hfollows.gives t u w hu hw hr, fun n hn => hw.knows (evaluate_registers e t w hr n hn)⟩

theorem evaluateAll_takes {es : List Expr} (h : ∀ e ∈ es, ∀ n ∈ namesIn e, A n) :
    Takes A (evaluateAll es) fun u ws => List.Forall₂ (IsWord u) es ws := by
  induction es with
  | nil =>
    rw [evaluateAll]
    exact .pure fun _ => .nil
  | cons e rest ih =>
    rw [List.forall_mem_cons] at h
    rw [evaluateAll]
    exact (evaluate_takes h.1).bind fun _ => (ih h.2).bind fun _ => .pure fun _ hws hw => .cons hw hws

end Words

/-- The names that a script takes for what it adds to a justfile. -/
inductive Internal : String → Prop where
  | ofVariable (name : String) : Internal ("VAR_" ++ name)
  | ofFunction (name : String) : Internal ("FUN_" ++ name)
  | ofForce (name : String) : Internal ("FORCE_" ++ name)
  | ofHasRun (name : String) : Internal ("HAS_RUN_" ++ name)
  | ofTest (e : Expr) : Internal (testName e)

mutual

/-- The names that an expression asks for are internal, or those of functions that it calls. -/
theorem internal_or_called : ∀ {e : Expr} {n : String}, n ∈ namesIn e →
    Internal n ∨ ∃ e' ∈ e.nodes, e'.function? = some n
  | .text _, n, h => by rw [namesIn] at h; cases h
  | .var name, n, h => by
    rw [namesIn, List.mem_singleton] at h
    rw [h]
    exact .inl (.ofVariable name)
  | .sum left right, n, h => by
    rw [namesIn, List.mem_append] at h
    rcases h with h | h
    · exact (internal_or_called h).imp id fun ⟨e', he', hf⟩ => ⟨e', by simp [Expr.nodes, he'], hf⟩
    · exact (internal_or_called h).imp id fun ⟨e', he', hf⟩ => ⟨e', by simp [Expr.nodes, he'], hf⟩
  | .path left right, n, h => by
    rw [namesIn, List.mem_append] at h
    rcases h with h | h
    · exact (internal_or_called h).imp id fun ⟨e', he', hf⟩ => ⟨e', by simp [Expr.nodes, he'], hf⟩
    · exact (internal_or_called h).imp id fun ⟨e', he', hf⟩ => ⟨e', by simp [Expr.nodes, he'], hf⟩
  | .backtick _, n, h => by rw [namesIn] at h; cases h
  | .call name args, n, h => by
    rw [namesIn, List.mem_append] at h
    rcases h with h | h
    · exact (internal_or_called_all h).imp id fun ⟨e', he', hf⟩ => ⟨e', by simp [Expr.nodes, he'], hf⟩
    · rw [List.mem_singleton.1 h]
      exact .inr ⟨_, Expr.self_mem_nodes _, rfl⟩
  | .bareCall name, n, h => by
    rw [namesIn, List.mem_singleton] at h
    rw [h]
    exact .inr ⟨_, Expr.self_mem_nodes _, rfl⟩
  | .cond op left right yes no, n, h => by
    rw [namesIn, List.mem_singleton] at h
    rw [h]
    exact .inl (.ofTest _)
  | .looseCond test yes no, n, h => by
    rw [namesIn, List.mem_singleton] at h
    rw [h]
    exact .inl (.ofTest _)
  | .stray _, n, h => by rw [namesIn] at h; cases h

theorem internal_or_called_all : ∀ {es : List Expr} {n : String}, n ∈ namesInAll es →
    Internal n ∨ ∃ e' ∈ Expr.nodesAll es, e'.function? = some n
  | [], n, h => by rw [namesInAll] at h; cases h
  | e :: rest, n, h => by
    rw [namesInAll, List.mem_append] at h
    rcases h with h | h
    · exact (internal_or_called h).imp id fun ⟨e', he', hf⟩ => ⟨e', by simp [Expr.nodesAll, he'], hf⟩
    · exact (internal_or_called_all h).imp id fun ⟨e', he', hf⟩ => ⟨e', by simp [Expr.nodesAll, he'], hf⟩

end

end Shell

open Shell Shell.Names

namespace Expr

mutual

/-- What stands in a part of an expression stands in the expression. -/
theorem nodes_subset : ∀ {e e' : Expr}, e' ∈ e.nodes → e'.nodes ⊆ e.nodes
  | .text _, e', h => by rw [nodes, List.mem_singleton] at h; rw [h]; exact fun _ h => h
  | .var _, e', h => by rw [nodes, List.mem_singleton] at h; rw [h]; exact fun _ h => h
  | .backtick _, e', h => by rw [nodes, List.mem_singleton] at h; rw [h]; exact fun _ h => h
  | .bareCall _, e', h => by rw [nodes, List.mem_singleton] at h; rw [h]; exact fun _ h => h
  | .stray _, e', h => by rw [nodes, List.mem_singleton] at h; rw [h]; exact fun _ h => h
  | .sum left right, e', h => by
    rw [nodes, List.mem_cons, List.mem_append] at h
    rcases h with rfl | h | h
    · exact fun _ h => h
    · exact fun x hx => by simp [nodes, nodes_subset h hx]
    · exact fun x hx => by simp [nodes, nodes_subset h hx]
  | .path left right, e', h => by
    rw [nodes, List.mem_cons, List.mem_append] at h
    rcases h with rfl | h | h
    · exact fun _ h => h
    · exact fun x hx => by simp [nodes, nodes_subset h hx]
    · exact fun x hx => by simp [nodes, nodes_subset h hx]
  | .call name args, e', h => by
    rw [nodes, List.mem_cons] at h
    rcases h with rfl | h
    · exact fun _ h => h
    · exact fun x hx => by simp [nodes, nodesAll_subset h hx]
  | .cond op left right yes no, e', h => by
    rw [nodes, List.mem_cons, List.mem_append, List.mem_append, List.mem_append] at h
    rcases h with rfl | ((h | h) | h) | h
    · exact fun _ h => h
    · exact fun x hx => by simp [nodes, nodes_subset h hx]
    · exact fun x hx => by simp [nodes, nodes_subset h hx]
    · exact fun x hx => by simp [nodes, nodes_subset h hx]
    · exact fun x hx => by simp [nodes, nodes_subset h hx]
  | .looseCond test yes no, e', h => by
    rw [nodes, List.mem_cons, List.mem_append] at h
    rcases h with rfl | h | h
    · exact fun _ h => h
    · exact fun x hx => by simp [nodes, nodes_subset h hx]
    · exact fun x hx => by simp [nodes, nodes_subset h hx]

theorem nodesAll_subset : ∀ {es : List Expr} {e' : Expr}, e' ∈ nodesAll es → e'.nodes ⊆ nodesAll es
  | [], e', h => by rw [nodesAll] at h; cases h
  | e :: rest, e', h => by
    rw [nodesAll, List.mem_append] at h
    rcases h with h | h
    · exact fun x hx => by simp [nodesAll, nodes_subset h hx]
    · exact fun x hx => by simp [nodesAll, nodesAll_subset h hx]

end

end Expr

/-- All names that an expression and those in it ask for are in `A`. -/
def Expr.Asks (A : String → Prop) (e : Expr) : Prop :=
  ∀ e' ∈ e.nodes, ∀ n ∈ namesIn e', A n

theorem Expr.Asks.self {A : String → Prop} {e : Expr} (h : e.Asks A) : ∀ n ∈ namesIn e, A n :=
  h e (self_mem_nodes e)

/-- The function of a conditional, with the words of its parts. -/
inductive TestFunction.Of (u : Names) : Expr → TestFunction → Prop where
  | cond {op : Comparison} {left right yes no : Expr} {name : String} {l r y n : Word}
      (hname : u.find? name = some (testName (.cond op left right yes no))) (hleft : IsWord u left l)
      (hright : IsWord u right r) (hyes : IsWord u yes y) (hno : IsWord u no n) :
      Of u (.cond op left right yes no) ⟨name, op, l, r, y, n⟩

namespace Helpers

variable {A : String → Prop} {S : List Expr}

/-- The functions of conditionals are those of expressions in `S`. -/
def Stem (S : List Expr) (u : Names) (hs : Helpers) : Prop :=
  ∀ h ∈ hs.values, ∀ f, h = .test f → ∃ e ∈ S, f.Of u e

theorem addBuiltin_takes (hs : Helpers) (name : String) :
    Takes A (hs.addBuiltin name) fun u hs' => Stem S u hs → Stem S u hs' := by
  unfold addBuiltin
  split
  · refine .pure fun u hstem => Table.forall_values_put hstem name fun f hf => ?_
    cases hf
  · exact .throw _

/-- **What the helpers of an expression add.** -/
theorem addExpr_takes : ∀ (e : Expr) (hs : Helpers), e.openNodes ⊆ S → e.Asks A →
    Takes A (hs.addExpr e) fun u hs' => Stem S u hs → Stem S u hs'
  | .text _, hs, _, _ => by rw [addExpr]; exact .pure fun _ hstem => hstem
  | .var _, hs, _, _ => by rw [addExpr]; exact .pure fun _ hstem => hstem
  | .stray _, hs, _, _ => by rw [addExpr]; exact .pure fun _ hstem => hstem
  | .call name _, hs, _, _ => by rw [addExpr]; exact addBuiltin_takes hs name
  | .bareCall name, hs, _, _ => by rw [addExpr]; exact addBuiltin_takes hs name
  | .looseCond _ _ _, _, _, _ => by rw [addExpr]; exact .throw _
  | .backtick _, hs, _, _ => by
    rw [addExpr]
    refine .pure fun u hstem => Table.forall_values_put hstem _ fun f hf => ?_
    cases hf
  | .sum left right, hs, hS, hA => by
    rw [Expr.openNodes] at hS
    rw [Expr.Asks, Expr.nodes, List.forall_mem_cons, List.forall_mem_append] at hA
    rw [addExpr]
    have hl := addExpr_takes left hs (fun e he => hS (by simp [he])) hA.2.1
    refine hl.bind fun hs' => ?_
    have hr := addExpr_takes right hs' (fun e he => hS (by simp [he])) hA.2.2
    exact hr.mono fun u hs'' h₂ h₁ hstem => h₂ (h₁ hstem)
  | .path left right, hs, hS, hA => by
    rw [Expr.openNodes] at hS
    rw [Expr.Asks, Expr.nodes, List.forall_mem_cons, List.forall_mem_append] at hA
    rw [addExpr]
    have hl := addExpr_takes left hs (fun e he => hS (by simp [he])) hA.2.1
    refine hl.bind fun hs' => ?_
    have hr := addExpr_takes right hs' (fun e he => hS (by simp [he])) hA.2.2
    exact hr.mono fun u hs'' h₂ h₁ hstem => h₂ (h₁ hstem)
  | .cond op left right yes no, hs, hS, hA => by
    have hmem : Expr.cond op left right yes no ∈ S := hS (by simp [Expr.openNodes])
    have hname : A (testName (.cond op left right yes no)) := hA.self _ (by simp [namesIn])
    rw [Expr.openNodes] at hS
    rw [Expr.Asks, Expr.nodes, List.forall_mem_cons, List.forall_mem_append, List.forall_mem_append,
      List.forall_mem_append] at hA
    obtain ⟨-, ⟨⟨hleft, hright⟩, hyes⟩, hno⟩ := hA
    rw [addExpr]
    refine (addExpr_takes left hs (fun e he => hS (by simp [he])) hleft).bind fun hs₁ => ?_
    refine (addExpr_takes right hs₁ (fun e he => hS (by simp [he])) hright).bind fun hs₂ => ?_
    refine (addExpr_takes yes hs₂ (fun e he => hS (by simp [he])) hyes).bind fun hs₃ => ?_
    refine (addExpr_takes no hs₃ (fun e he => hS (by simp [he])) hno).bind fun hs₄ => ?_
    -- the function comes after those of the conditionals inside it
    refine (Takes.cleanName hname).bind fun name => (evaluate_takes (Expr.Asks.self hleft)).bind fun l => ?_
    refine (evaluate_takes (Expr.Asks.self hright)).bind fun r => ?_
    refine (evaluate_takes (Expr.Asks.self hyes)).bind fun y => ?_
    refine (evaluate_takes (Expr.Asks.self hno)).bind fun n => ?_
    refine .pure fun u hn hy hr hl hname h₄ h₃ h₂ h₁ hstem => ?_
    refine Table.forall_values_put (h₄ (h₃ (h₂ (h₁ hstem)))) name fun f hf => ?_
    cases hf
    exact ⟨_, hmem, .cond hname hl hr hy hn⟩

theorem ofItems_takes {items : List Item} (hA : ∀ i ∈ items, ∀ e ∈ i.declaration.exprs, e.Asks A) :
    Takes A (ofItems items) fun u hs => Stem (openExprNodes items) u hs := by
  have hplatforms : Takes A ((items.filterMap fun i => detector? i.attributes).foldlM addBuiltin .empty)
      fun u hs => Stem (openExprNodes items) u .empty → Stem (openExprNodes items) u hs :=
    .foldlM (fun name _ hs => addBuiltin_takes hs name) .empty
  have hexprs : ∀ hs, Takes A (items.foldlM (fun hs i => hs.addExprs i.declaration.exprs) hs)
      fun u hs' => Stem (openExprNodes items) u hs → Stem (openExprNodes items) u hs' := by
    refine fun hs => .foldlM (fun i hi hs => .foldlM (fun e he hs => ?_) hs) hs
    refine addExpr_takes e hs (fun e' he' => ?_) (hA i hi e he)
    exact List.mem_flatMap.2 ⟨i, hi, List.mem_flatMap.2 ⟨e, he, he'⟩⟩
  refine hplatforms.bind fun hs => (hexprs hs).mono fun u hs' h₂ h₁ => h₂ (h₁ fun h hh => ?_)
  cases hh

end Helpers

end Justfile
