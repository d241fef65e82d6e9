import Justfile.Proofs.Clashes
import Justfile.Proofs.Linking

/-!
# The order of assignments

A variable can be declared anywhere in a justfile, but a script assigns its variables one after the other, and
stops when a value reads one that has none yet. The assignments stand in the order in which the variables are
first declared, each with the value that is declared last: what a value reads does not count.

* `Program.keys_variablesOf`, `Program.find?_variablesOf`: the variables of a program, in these terms.
* `idxOf_eraseDups_lt`: who comes first does not depend on what comes again.
* `Made.idxOf_assigned_lt`: one variable is assigned before another just if it is declared first.
* `assignments_in_order`: every variable is assigned before it is read just if it is declared before.
-/

namespace Justfile

open Shell Shell.Names

section Lists

variable {α β : Type} [DecidableEq α] [DecidableEq β] {l : List α} {a b c : α}

theorem eraseDups_concat_of_mem (h : a ∈ l) : (l ++ [a]).eraseDups = l.eraseDups := by
  have hnone : [a].removeAll l = [] := by simp [List.removeAll, h]
  rw [List.eraseDups_append, hnone, List.eraseDups_nil, List.append_nil]

theorem eraseDups_concat_of_notMem (h : a ∉ l) : (l ++ [a]).eraseDups = l.eraseDups ++ [a] := by
  have hself : [a].removeAll l = [a] := by simp [List.removeAll, h]
  rw [List.eraseDups_append, hself]
  rfl

/-- A new last member comes before those that are not there. -/
theorem idxOf_concat_lt : (l ++ [c]).idxOf a < (l ++ [c]).idxOf b ↔
    l.idxOf a < l.idxOf b ∨ (a ∉ l ∧ b ∉ l ∧ a = c ∧ b ≠ c) := by
  have hlast : ∀ x : α, [c].idxOf x = if x = c then 0 else 1 := by
    intro x
    by_cases hx : x = c
    · rw [if_pos hx, hx, List.idxOf_cons_self]
    · rw [if_neg hx, List.idxOf_cons_ne _ (Ne.symm hx)]
      rfl
  rw [List.idxOf_append, List.idxOf_append, hlast, hlast]
  by_cases ha : a ∈ l <;> by_cases hb : b ∈ l
  · simp [ha, hb]
  · have hlt := List.idxOf_lt_length_iff.2 ha
    rw [if_pos ha, if_neg hb, List.idxOf_eq_length hb]
    simp only [ha, not_true, false_and, or_false]
    omega
  · have hlt := List.idxOf_lt_length_iff.2 hb
    rw [if_neg ha, if_pos hb, List.idxOf_eq_length ha]
    simp only [hb, not_true, false_and, and_false, or_false]
    omega
  · rw [if_neg ha, if_neg hb, List.idxOf_eq_length ha, List.idxOf_eq_length hb]
    simp only [ha, hb, not_false_eq_true, true_and, lt_self_iff_false, false_or]
    by_cases hac : a = c <;> by_cases hbc : b = c <;> simp [hac, hbc]

/-- **Who comes first does not depend on what comes again.** -/
theorem idxOf_eraseDups_lt (l : List α) (a b : α) :
    l.eraseDups.idxOf a < l.eraseDups.idxOf b ↔ l.idxOf a < l.idxOf b := by
  induction l using List.reverseRecOn with
  | nil => rfl
  | append_singleton l c ih =>
    rw [idxOf_concat_lt]
    by_cases hc : c ∈ l
    · rw [eraseDups_concat_of_mem hc, ih]
      exact ⟨.inl, fun h => h.resolve_right fun ⟨ha, _, hac, _⟩ => ha (hac ▸ hc)⟩
    · rw [eraseDups_concat_of_notMem hc, idxOf_concat_lt, ih, List.mem_eraseDups, List.mem_eraseDups]

/-- Where nothing else has the image of `a`, it stands where `a` does. -/
theorem idxOf_map_of_eq {f : α → β} (h : ∀ b ∈ l, f b = f a → b = a) :
    (l.map f).idxOf (f a) = l.idxOf a := by
  induction l with
  | nil => rfl
  | cons b l ih =>
    rw [List.map_cons]
    by_cases hb : b = a
    · rw [hb, List.idxOf_cons_self, List.idxOf_cons_self]
    · have hne : f b ≠ f a := fun heq => hb (h b List.mem_cons_self heq)
      rw [List.idxOf_cons_ne _ hne, List.idxOf_cons_ne _ hb, ih fun c hc => h c (List.mem_cons_of_mem b hc)]

end Lists

/-- The variables of a justfile, in the order in which they are first declared. -/
def variablesIn (items : List Item) : List String :=
  ((assignmentsIn items).map (·.1)).eraseDups

/-- The value that is declared last for a variable. -/
def lastValue? (items : List Item) (name : String) : Option Expr :=
  (assignmentsIn items).reverse.lookup name

namespace Table

variable {α : Type}

/-- The keys of a table that is filled entry by entry. -/
theorem keys_foldl_put (l : List (String × α)) :
    (l.foldl (fun t x => t.put x.1 x.2) empty).keys = (l.map (·.1)).eraseDups := by
  induction l using List.reverseRecOn with
  | nil => rfl
  | append_singleton l x ih =>
    rw [List.foldl_append, List.foldl_cons, List.foldl_nil, List.map_append, List.map_singleton]
    by_cases hmem : x.1 ∈ l.map (·.1)
    · rw [keys_put_of_mem (by rwa [ih, List.mem_eraseDups]), ih, eraseDups_concat_of_mem hmem]
    · rw [keys_put_of_notMem (by rwa [ih, List.mem_eraseDups]), ih, eraseDups_concat_of_notMem hmem]

/-- A table that is filled entry by entry has the last value for each key. -/
theorem find?_foldl_put (l : List (String × α)) (key : String) :
    (l.foldl (fun t x => t.put x.1 x.2) empty).find? key = l.reverse.lookup key := by
  induction l using List.reverseRecOn with
  | nil => rfl
  | append_singleton l x ih =>
    rw [List.foldl_append, List.foldl_cons, List.foldl_nil, List.reverse_append, List.reverse_singleton,
      List.singleton_append, List.lookup_cons]
    by_cases hkey : key = x.1
    · rw [hkey, find?_put_self, beq_self_eq_true]
    · rw [find?_put_of_ne _ _ hkey, ih, beq_false_of_ne hkey]

/-- Where no key comes twice, every entry is found. -/
theorem find?_of_mem_entries {t : Table α} (h : t.keys.Nodup) {x : String × α} (hx : x ∈ t.entries) :
    t.find? x.1 = some x.2 := by
  obtain ⟨before, after, hsplit⟩ := List.append_of_mem hx
  refine List.lookup_eq_some_iff.2 ⟨before, after, hsplit, fun y hy => ?_⟩
  rw [Table.keys, hsplit, List.map_append, List.map_cons] at h
  have hne : y.1 ≠ x.1 := (List.nodup_append.1 h).2.2 _ (List.mem_map_of_mem hy) _ List.mem_cons_self
  exact bne_iff_ne.2 hne.symm

end Table

namespace Program

variable {items : List Item}

/-- Only assignments count. -/
theorem variablesOf_eq : variablesOf items = (assignmentsIn items).foldl (fun t x => t.put x.1 x.2) .empty := by
  unfold variablesOf assignmentsIn
  generalize Table.empty = t
  induction items generalizing t with
  | nil => rfl
  | cons i items ih =>
    rw [List.foldl_cons, ih, List.filterMap_cons]
    cases i.declaration <;> rfl

theorem keys_variablesOf : (variablesOf items).keys = variablesIn items := by
  rw [variablesOf_eq, Table.keys_foldl_put, variablesIn]

theorem find?_variablesOf (name : String) : (variablesOf items).find? name = lastValue? items name := by
  rw [variablesOf_eq, Table.find?_foldl_put, lastValue?]

theorem nodup_keys_variablesOf : (variablesOf items).keys.Nodup := by
  rw [variablesOf_eq]
  exact List.foldlRecOn (motive := fun t : Table Expr => t.keys.Nodup) _ _ .nil
    fun t ht x _ => Table.nodup_keys_put ht x.1 x.2

end Program

namespace Expr

mutual

/-- The variables that the word of an expression reads. Those in conditionals are read by functions. -/
def reads : Expr → List String
  | .var name => [name]
  | .sum left right => reads left ++ reads right
  | .path left right => reads left ++ reads right
  | .call _ args => readsAll args
  | _ => []

/-- The variables that the words of expressions read. -/
def readsAll : List Expr → List String
  | [] => []
  | e :: rest => reads e ++ readsAll rest

end

/-- The variables that the function of a conditional reads. -/
def testReads : Expr → List String
  | .cond _ left right yes no => left.reads ++ right.reads ++ yes.reads ++ no.reads
  | .looseCond _ yes no => yes.reads ++ no.reads
  | _ => []

/-- What is read in an operand or a branch of a conditional is read by its function or by one inside. -/
theorem read_of_branch {name : String} {e branch : Expr} (hnodes : branch.nodes ⊆ e.nodes)
    (hreads : branch.reads ⊆ e.testReads) (h : name ∈ branch.reads ∨ ∃ e' ∈ branch.nodes, name ∈ e'.testReads) :
    ∃ e' ∈ e.nodes, name ∈ e'.testReads := by
  rcases h with h | ⟨e', he', hname⟩
  · exact ⟨e, e.self_mem_nodes, hreads h⟩
  · exact ⟨e', hnodes he', hname⟩

mutual

/-- **Every variable of an expression is read by its word or by the function of a conditional in it.** -/
theorem read_of_mem_nodes {name : String} : ∀ {e : Expr}, .var name ∈ e.nodes →
    name ∈ e.reads ∨ ∃ e' ∈ e.nodes, name ∈ e'.testReads
  | .var n, h => by
    rw [nodes, List.mem_singleton] at h
    cases h
    exact .inl (by rw [reads]; exact List.mem_singleton_self _)
  | .sum left right, h | .path left right, h => by
    rw [nodes, List.mem_cons, List.mem_append] at h
    rw [nodes, reads, List.mem_append]
    rcases h with h | h | h
    · cases h
    · exact (read_of_mem_nodes h).imp .inl fun ⟨e', he', hname⟩ => ⟨e', by simp [he'], hname⟩
    · exact (read_of_mem_nodes h).imp .inr fun ⟨e', he', hname⟩ => ⟨e', by simp [he'], hname⟩
  | .call f args, h => by
    rw [nodes, List.mem_cons] at h
    rw [nodes, reads]
    rcases h with h | h
    · cases h
    · exact (read_of_mem_nodesAll h).imp id fun ⟨e', he', hname⟩ => ⟨e', List.mem_cons_of_mem _ he', hname⟩
  | .cond op left right yes no, h => by
    rw [nodes, List.mem_cons, List.mem_append, List.mem_append, List.mem_append] at h
    refine .inr ?_
    rcases h with h | ((h | h) | h) | h
    · cases h
    all_goals
      exact read_of_branch (fun e' he' => by simp [nodes, he']) (fun n hn => by simp [testReads, hn])
        (read_of_mem_nodes h)
  | .looseCond test yes no, h => by
    rw [nodes, List.mem_cons, List.mem_append] at h
    refine .inr ?_
    rcases h with h | h | h
    · cases h
    all_goals
      exact read_of_branch (fun e' he' => by simp [nodes, he']) (fun n hn => by simp [testReads, hn])
        (read_of_mem_nodes h)
  | .text _, h | .backtick _, h | .bareCall _, h | .stray _, h => by
    rw [nodes, List.mem_singleton] at h
    cases h

theorem read_of_mem_nodesAll {name : String} : ∀ {es : List Expr}, .var name ∈ nodesAll es →
    name ∈ readsAll es ∨ ∃ e' ∈ nodesAll es, name ∈ e'.testReads
  | [], h => absurd h List.not_mem_nil
  | e :: rest, h => by
    rw [nodesAll, List.mem_append] at h
    rw [nodesAll, readsAll, List.mem_append]
    rcases h with h | h
    · exact (read_of_mem_nodes h).imp .inl fun ⟨e', he', hname⟩ => ⟨e', List.mem_append_left _ he', hname⟩
    · exact (read_of_mem_nodesAll h).imp .inr fun ⟨e', he', hname⟩ => ⟨e', List.mem_append_right _ he', hname⟩

end

mutual

/-- What the word of an expression reads stands in the expression. -/
theorem mem_nodes_of_reads {name : String} : ∀ {e : Expr}, name ∈ e.reads → .var name ∈ e.nodes
  | .var n, h => by
    rw [reads, List.mem_singleton] at h
    rw [h, nodes]
    exact List.mem_singleton_self _
  | .sum left right, h | .path left right, h => by
    rw [reads, List.mem_append] at h
    rw [nodes, List.mem_cons, List.mem_append]
    exact .inr (h.imp mem_nodes_of_reads mem_nodes_of_reads)
  | .call f args, h => by
    rw [reads] at h
    rw [nodes]
    exact List.mem_cons_of_mem _ (mem_nodesAll_of_readsAll h)
  | .text _, h | .backtick _, h | .bareCall _, h | .stray _, h | .cond _ _ _ _ _, h | .looseCond _ _ _, h =>
    absurd h List.not_mem_nil

theorem mem_nodesAll_of_readsAll {name : String} : ∀ {es : List Expr}, name ∈ readsAll es → .var name ∈ nodesAll es
  | [], h => absurd h List.not_mem_nil
  | e :: rest, h => by
    rw [readsAll, List.mem_append] at h
    rw [nodesAll, List.mem_append]
    exact h.imp mem_nodes_of_reads mem_nodesAll_of_readsAll

end

/-- What the function of a conditional reads stands in the conditional. -/
theorem mem_nodes_of_testReads {name : String} {e : Expr} (h : name ∈ e.testReads) : .var name ∈ e.nodes := by
  cases e with
  | cond op left right yes no =>
    simp only [testReads, List.mem_append] at h
    rcases h with ((h | h) | h) | h <;> simp [nodes, mem_nodes_of_reads h]
  | looseCond test yes no =>
    simp only [testReads, List.mem_append] at h
    rcases h with h | h <;> simp [nodes, mem_nodes_of_reads h]
  | _ => cases h

/-- **The variables of an expression are those that its word reads, and those that the functions of the
conditionals in it read.** -/
theorem mem_variables_iff {e : Expr} {name : String} :
    name ∈ e.variables ↔ name ∈ e.reads ∨ ∃ e' ∈ e.nodes, name ∈ e'.testReads := by
  rw [mem_variables]
  refine ⟨read_of_mem_nodes, fun h => ?_⟩
  rcases h with h | ⟨e', he', h⟩
  · exact mem_nodes_of_reads h
  · exact nodes_subset he' (mem_nodes_of_testReads h)

end Expr

namespace Shell

section Words

variable {σ : String → String}

mutual

/-- **A word reads the variables of its expression that are not in conditionals**, in order. -/
theorem reads_of_wordOf : ∀ {e : Expr} {w : Word}, wordOf σ e = .ok w →
    w.reads = e.reads.map fun v => σ ("VAR_" ++ v)
  | .var _, w, h => by
    rw [wordOf] at h
    cases h
    rfl
  | .sum left right, w, h => by
    rw [wordOf] at h
    obtain ⟨l, hl, h⟩ := ok_of_bind h
    obtain ⟨r, hr, h⟩ := ok_of_bind h
    cases h
    rw [Word.reads_append, Expr.reads, List.map_append, reads_of_wordOf hl, reads_of_wordOf hr]
  | .path left right, w, h => by
    rw [wordOf] at h
    obtain ⟨l, hl, h⟩ := ok_of_bind h
    obtain ⟨r, hr, h⟩ := ok_of_bind h
    cases h
    have hslash : (Word.append .slash r).reads = r.reads := rfl
    rw [Word.reads_append, hslash, Expr.reads, List.map_append, reads_of_wordOf hl, reads_of_wordOf hr]
  | .call _ args, w, h => by
    rw [wordOf] at h
    obtain ⟨ws, hws, h⟩ := ok_of_bind h
    cases h
    rw [Word.reads_call, Expr.reads, reads_of_wordsOf hws]
  | .text _, w, h | .backtick _, w, h | .bareCall _, w, h | .cond _ _ _ _ _, w, h | .looseCond _ _ _, w, h => by
    rw [wordOf] at h
    cases h
    rfl
  | .stray _, w, h => by
    rw [wordOf] at h
    cases h

theorem reads_of_wordsOf : ∀ {es : List Expr} {ws : List Word}, wordsOf σ es = .ok ws →
    ws.flatMap Word.reads = (Expr.readsAll es).map fun v => σ ("VAR_" ++ v)
  | [], ws, h => by
    rw [wordsOf] at h
    cases h
    rfl
  | e :: rest, ws, h => by
    rw [wordsOf] at h
    obtain ⟨w, hw, h⟩ := ok_of_bind h
    obtain ⟨ws', hws, h⟩ := ok_of_bind h
    cases h
    rw [List.flatMap_cons, Expr.readsAll, List.map_append, reads_of_wordOf hw, reads_of_wordsOf hws]

end

end Words

end Shell

/-- The function of a conditional reads the variables of its operands and branches that are not in other
conditionals. -/
theorem TestFunction.Of.reads_eq {u : Names} {e : Expr} {f : TestFunction} (h : f.Of u e) :
    f.reads = e.testReads.map fun v => u.shellName ("VAR_" ++ v) := by
  cases h with
  | cond hname hleft hright hyes hno =>
    simp only [TestFunction.reads, TestFunction.words, Expr.testReads, List.flatMap_cons, List.flatMap_nil,
      List.append_nil, List.map_append, List.append_assoc, reads_of_wordOf hleft.word,
      reads_of_wordOf hright.word, reads_of_wordOf hyes.word, reads_of_wordOf hno.word]

/-- Every variable is declared before another's value reads it. Where it is declared again does not count. -/
def DeclaresFirst (items : List Item) : Prop :=
  ∀ v e, lastValue? items v = some e → ∀ w ∈ e.variables,
    ((assignmentsIn items).map (·.1)).idxOf w < ((assignmentsIn items).map (·.1)).idxOf v

namespace Script

/-- One shell variable is assigned before another. -/
def Before (s : Script) (n m : String) : Prop :=
  s.assigned.idxOf n < s.assigned.idxOf m

/-- Every shell variable is assigned before the word of another's value reads it, or the function of a
conditional in that value. -/
def AssignsFirst (items : List Item) (u : Names) (s : Script) : Prop :=
  ∀ a ∈ s.assignments, (∀ n ∈ a.value.reads, s.Before n a.name) ∧
    ∀ v e, u.find? a.name = some ("VAR_" ++ v) → lastValue? items v = some e →
      ∀ e' ∈ e.nodes, ∀ w ∈ e'.testReads, s.Before (u.shellName ("VAR_" ++ w)) a.name

/-- **The assignments of a script.** There is one for each variable, in the order in which they are first
declared, and its word is that of the last value. One variable is assigned before another just if it is declared
first, so variables are assigned before they are read just if the justfile has them in such an order. -/
structure InOrder (items : List Item) (u : Names) (s : Script) : Prop where
  assignments : List.Forall₂ (fun v a => u.find? a.name = some ("VAR_" ++ v) ∧ ∃ e, lastValue? items v = some e ∧
    IsWord u e a.value ∧ a.value.reads = e.reads.map fun w => u.shellName ("VAR_" ++ w))
    (variablesIn items) s.assignments
  tests : ∀ f, .test f ∈ s.helpers → ∃ e ∈ openExprNodes items, f.Of u e ∧
    f.reads = e.testReads.map fun w => u.shellName ("VAR_" ++ w)
  order : ∀ v w, s.Before (u.shellName ("VAR_" ++ w)) (u.shellName ("VAR_" ++ v)) ↔
    ((assignmentsIn items).map (·.1)).idxOf w < ((assignmentsIn items).map (·.1)).idxOf v
  first : s.AssignsFirst items u ↔ DeclaresFirst items

end Script

namespace Made

variable {items : List Item} {p : Program} {s : Script} {u : Names} (h : Made items p s u)

include h

theorem assignments : List.Forall₂ (fun v a => u.find? a.name = some ("VAR_" ++ v) ∧
    ∃ e, lastValue? items v = some e ∧ IsWord u e a.value ∧
      a.value.reads = e.reads.map fun w => u.shellName ("VAR_" ++ w)) (variablesIn items) s.assignments := by
  have hlast : ∀ x ∈ p.values.entries, lastValue? items x.1 = some x.2 := by
    intro x hx
    rw [h.program.values] at hx
    rw [← Program.find?_variablesOf]
    exact Table.find?_of_mem_entries Program.nodup_keys_variablesOf hx
  rw [← Program.keys_variablesOf, ← h.program.values]
  refine List.forall₂_map_left_iff.2 (((List.forall₂_and_left _ _).2 ⟨hlast, h.script.assignments⟩).imp ?_)
  rintro x a ⟨hvalue, hname, hword⟩
  exact ⟨hname, x.2, hvalue, hword, reads_of_wordOf hword.word⟩

/-- The variables are assigned in the order of their first declarations. -/
theorem assigned_eq : s.assigned = (variablesIn items).map fun v => u.shellName ("VAR_" ++ v) := by
  rw [Script.assigned, ← List.forall₂_eq_eq_eq]
  refine List.forall₂_map_left_iff.2 (List.forall₂_map_right_iff.2 (h.assignments.flip.imp ?_))
  rintro a v ⟨hname, -⟩
  exact (h.settled _ _ hname).symm

/-- A variable is assigned where it is first declared among the others, or not at all. -/
theorem idxOf_assigned (v : String) :
    s.assigned.idxOf (u.shellName ("VAR_" ++ v)) = (variablesIn items).idxOf v := by
  rw [h.assigned_eq]
  refine idxOf_map_of_eq (f := fun v => u.shellName ("VAR_" ++ v)) fun w hw heq => ?_
  -- the shell name of `w` is known to be that of `w`, so that it is not free for `v`
  obtain ⟨a, -, hname, -⟩ := exists_right_of_mem h.assignments w hw
  rw [← h.settled _ _ hname] at hname
  have hfree := isFree_shellName u ("VAR_" ++ v)
  rw [← heq, isFree, hname] at hfree
  exact (String.append_right_inj "VAR_").1 (beq_iff_eq.1 hfree)

/-- **One variable is assigned before another just if it is declared first.** -/
theorem idxOf_assigned_lt (v w : String) :
    s.Before (u.shellName ("VAR_" ++ w)) (u.shellName ("VAR_" ++ v)) ↔
      ((assignmentsIn items).map (·.1)).idxOf w < ((assignmentsIn items).map (·.1)).idxOf v := by
  rw [Script.Before, h.idxOf_assigned, h.idxOf_assigned]
  exact idxOf_eraseDups_lt _ w v

theorem assignsFirst_iff : s.AssignsFirst items u ↔ DeclaresFirst items := by
  constructor
  · intro hfirst v e hvalue w hw
    have hmem : v ∈ variablesIn items := by
      rw [← Program.find?_variablesOf] at hvalue
      rw [← Program.keys_variablesOf]
      exact List.mem_map_of_mem (Table.mem_entries_of_find? hvalue)
    obtain ⟨a, ha, hname, e', hvalue', -, hreads⟩ := exists_right_of_mem h.assignments v hmem
    rw [hvalue] at hvalue'
    cases hvalue'
    obtain ⟨hword, htests⟩ := hfirst a ha
    refine (h.idxOf_assigned_lt v w).1 ?_
    rw [h.settled _ _ hname]
    rcases Expr.mem_variables_iff.1 hw with hw | ⟨e', he', hw⟩
    · refine hword _ ?_
      rw [hreads]
      exact List.mem_map_of_mem hw
    · exact htests v e hname hvalue e' he' w hw
  · intro hfirst a ha
    obtain ⟨v, -, hname, e, hvalue, hword, hreads⟩ := exists_left_of_mem h.assignments a ha
    have hbefore : ∀ w ∈ e.variables, s.Before (u.shellName ("VAR_" ++ w)) a.name := by
      intro w hw
      rw [← h.settled _ _ hname]
      exact (h.idxOf_assigned_lt v w).2 (hfirst v e hvalue w hw)
    constructor
    · intro n hn
      rw [hreads] at hn
      obtain ⟨w, hw, rfl⟩ := List.mem_map.1 hn
      exact hbefore w (Expr.mem_variables_iff.2 (.inl hw))
    · intro v' e' hname' hvalue' c hc w hw
      have hsame : v' = v := (String.append_right_inj "VAR_").1 (Option.some.inj (hname'.symm.trans hname))
      rw [hsame, hvalue] at hvalue'
      cases hvalue'
      exact hbefore w (Expr.mem_variables_iff.2 (.inr ⟨c, hc, hw⟩))

theorem inOrder : s.InOrder items u := by
  refine ⟨h.assignments, fun f hf => ?_, h.idxOf_assigned_lt, h.assignsFirst_iff⟩
  rw [h.script.helpers] at hf
  obtain ⟨e, he, hof⟩ := h.tests _ hf f rfl
  exact ⟨e, he, hof, hof.reads_eq⟩

end Made

/-- **Variables are assigned in the order in which they are first declared**, whatever their values read. -/
theorem assignments_in_order {edition : Edition} {outfile text script : String} {items : List Item}
    (hparse : parse text = .ok items) (hscript : (compile edition outfile text).script = .ok script) :
    ∃ p s, (Program.ofItems items).result .empty = .ok p ∧
      (Script.ofProgram edition outfile text p).result ((Program.ofItems items).table .empty) = .ok s ∧
      s.text = script ∧ s.InOrder items (namesAfter edition outfile text items p) := by
  obtain ⟨p, s, hp, hs, htext, hmade⟩ := made_of_compile hparse hscript
  exact ⟨p, s, hp, hs, htext, hmade.inOrder⟩

/-- A variable that is declared after the value that reads it. -/
def reversedText : String :=
  "foo := bar + 'x'\nbar := '1'\n"

def reversedItems : List Item :=
  [⟨[], .assignment "foo" (.sum (.var "bar") (.text "x"))⟩, ⟨[], .assignment "bar" (.text "1")⟩]

/-- The variables are declared, and no value needs itself, but the first one is assigned before the second, which
it reads. -/
theorem assignments_in_order_reversed :
    parse reversedText = .ok reversedItems ∧
      (∀ x ∈ assignmentsIn reversedItems, ∀ w ∈ x.2.variables, w ∈ variablesIn reversedItems) ∧
      (∃ rank : String → Nat, ∀ x ∈ assignmentsIn reversedItems, ∀ w ∈ x.2.variables, rank w < rank x.1) ∧
      ∃ script p, ∃ s : Script,
        (compile ⟨"2000-01-02", "unknown"⟩ "just.sh" reversedText).script = .ok script ∧ s.text = script ∧
        s.assigned = ["VAR_foo", "VAR_bar"] ∧ ¬ s.AssignsFirst reversedItems
          (namesAfter ⟨"2000-01-02", "unknown"⟩ "just.sh" reversedText reversedItems p) := by
  have hparse : parse reversedText = .ok reversedItems := by decide +kernel
  have hassigned : Script.assignedNames? reversedItems = some ["VAR_foo", "VAR_bar"] := by decide +kernel
  obtain ⟨script, hscript⟩ := compile_succeeds isDate_sample hparse rfl (by decide +kernel) rfl
  obtain ⟨p, s, hp, hs, htext, horder⟩ := assignments_in_order hparse hscript
  rw [Script.assignedNames?_of_ofProgram hp hs, Option.some.injEq] at hassigned
  refine ⟨hparse, by decide, ⟨fun v => if v = "foo" then 1 else 0, by decide⟩, script, p, s, hscript, htext,
    hassigned, fun hfirst => ?_⟩
  exact absurd (horder.first.1 hfirst "foo" (.sum (.var "bar") (.text "x")) rfl "bar" (by decide)) (by decide)

end Justfile
