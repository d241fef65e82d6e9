import Mathlib
import Justfile.Shell.Names

/-!
# The table of shell names

A table is **settled** if each of its entries stands where its name would be put again: all earlier
candidates stand for other names. Naming keeps tables settled and only adds entries, so what a name
is called never changes.

* `candidate_injective`: the candidates for a name are all different.
* `shellName_least`: a name gets its first candidate that stands for no other name, and there is
  one among the first `size + 1`.
* `Settled.clean`, `within_clean`: what one naming preserves.
* `Follows`: a computation whose result is a function of the names in any later table. Sequences of
  such computations are such computations again.
* `Registers`: a computation after which certain names are known.
* `Succeeds`: a computation that gives a result from every table.
-/

namespace Justfile.Shell

namespace Names

/-- **The candidates for a name are all different.** -/
theorem candidate_injective (base : String) : Function.Injective (candidate base) := by
  intro j k h
  -- a candidate with a number is longer than the one without
  have hlen : ∀ n, base ≠ base ++ "_" ++ toString (n + 2) := by
    intro n hn
    have := congrArg String.length hn
    simp only [String.length_append] at this
    have h1 : "_".length = 1 := rfl
    omega
  cases j with
  | zero =>
    cases k with
    | zero => rfl
    | succ k => exact absurd h (hlen k)
  | succ j =>
    cases k with
    | zero => exact absurd h.symm (hlen j)
    | succ k =>
      simp only [candidate] at h
      have := Nat.repr_injective ((String.append_right_inj _).1 h)
      omega

variable {t u : Names} {name other shell : String}

theorem isFree_of_find?_self (h : t.find? shell = some name) : t.isFree name shell = true := by
  simp [isFree, h]

theorem isFree_eq_false_iff :
    t.isFree name shell = false ↔ ∃ other, t.find? shell = some other ∧ other ≠ name := by
  unfold isFree
  cases h : t.find? shell with
  | none => simp
  | some other => simp

/-- Where the search for a free candidate ends. -/
theorem firstFree_spec (t : Names) (name base : String) :
    ∀ n k, ∃ j, k ≤ j ∧ j ≤ k + n ∧ t.firstFree name base n k = candidate base j ∧
      (∀ i, k ≤ i → i < j → t.isFree name (candidate base i) = false) ∧
      (j < k + n → t.isFree name (candidate base j) = true) := by
  intro n
  induction n with
  | zero =>
    intro k
    exact ⟨k, le_rfl, le_rfl, rfl, fun i h1 h2 => by omega, fun h => by omega⟩
  | succ n ih =>
    intro k
    -- the search ends here, or goes on with the next number
    by_cases hf : t.isFree name (candidate base k) = true
    · exact ⟨k, le_rfl, by omega, by simp [firstFree, hf], fun i h1 h2 => by omega, fun _ => hf⟩
    · obtain ⟨j, h1, h2, h3, h4, h5⟩ := ih (k + 1)
      refine ⟨j, by omega, by omega, by simp [firstFree, hf, h3], ?_, fun h => h5 (by omega)⟩
      intro i hi hij
      rcases Nat.eq_or_lt_of_le hi with rfl | hi
      · simpa using hf
      · exact h4 i hi hij

theorem mem_keys_of_find? {α : Type} {t : Table α} {key : String} {value : α}
    (h : t.find? key = some value) : key ∈ t.keys := by
  obtain ⟨entries⟩ := t
  simp only [Table.find?, Table.keys] at h ⊢
  induction entries with
  | nil => simp at h
  | cons e rest ih =>
    rw [List.lookup_cons] at h
    by_cases hk : key = e.1
    · simp [hk]
    · have hb : (key == e.1) = false := by simpa using hk
      rw [hb] at h
      exact List.mem_cons_of_mem _ (ih h)

/-- If the first candidates up to the size of the table stand for other names, these are all
entries, and the next candidate is not one of them. -/
theorem isFree_of_all_taken (t : Names) (name base : String)
    (h : ∀ i, i < t.size → t.isFree name (candidate base i) = false) :
    t.isFree name (candidate base t.size) = true := by
  by_contra hc
  -- otherwise `size + 1` different candidates are keys of the table
  have hmem : ∀ i, i < t.size + 1 → candidate base i ∈ t.keys := by
    intro i hi
    have hi' : t.isFree name (candidate base i) = false := by
      rcases Nat.eq_or_lt_of_le (Nat.le_of_lt_succ hi) with rfl | hi
      · simpa using hc
      · exact h i hi
    obtain ⟨other, ho, -⟩ := isFree_eq_false_iff.1 hi'
    exact mem_keys_of_find? ho
  have hnd : ((List.range (t.size + 1)).map (candidate base)).Nodup :=
    List.nodup_range.map (candidate_injective base)
  have hsub : (List.range (t.size + 1)).map (candidate base) ⊆ t.keys := by
    intro s hs
    obtain ⟨i, hi, rfl⟩ := List.mem_map.1 hs
    exact hmem i (List.mem_range.1 hi)
  have hle := (List.subperm_of_subset hnd hsub).length_le
  simp only [List.length_map, List.length_range, Table.keys] at hle
  unfold Table.size at hle
  omega

/-- **A name gets its first candidate that stands for no other name**, and there is one among the
first `size + 1`. -/
theorem shellName_least (t : Names) (name : String) :
    ∃ k, k ≤ t.size ∧ t.shellName name = candidate (dashless name) k ∧
      t.isFree name (candidate (dashless name) k) = true ∧
      ∀ j, j < k → t.isFree name (candidate (dashless name) j) = false := by
  obtain ⟨k, -, hk, hs, hlt, hfree⟩ := firstFree_spec t name (dashless name) t.size 0
  simp only [Nat.zero_add] at hk hfree
  refine ⟨k, hk, hs, ?_, fun j hj => hlt j (Nat.zero_le _) hj⟩
  -- a search that uses up its steps has found all smaller candidates taken
  rcases Nat.eq_or_lt_of_le hk with rfl | hk
  · exact isFree_of_all_taken t name _ fun i hi => hlt i (Nat.zero_le _) hi
  · exact hfree hk

theorem isFree_shellName (t : Names) (name : String) : t.isFree name (t.shellName name) = true := by
  obtain ⟨k, -, hs, hfree, -⟩ := shellName_least t name
  rw [hs]; exact hfree

/-- The first free candidate is the name. -/
theorem shellName_eq_of_least {k : Nat} (hfree : t.isFree name (candidate (dashless name) k) = true)
    (hlt : ∀ j, j < k → t.isFree name (candidate (dashless name) j) = false) :
    t.shellName name = candidate (dashless name) k := by
  obtain ⟨j, -, hs, hj, hltj⟩ := shellName_least t name
  -- a free candidate below the other one would contradict that the other is the first
  rcases Nat.lt_trichotomy j k with h | rfl | h
  · rw [hlt j h] at hj; cases hj
  · exact hs
  · rw [hltj k h] at hfree; cases hfree

/-- Every entry of `t` is one of `u`. -/
def Within (t u : Names) : Prop :=
  ∀ shell name, t.find? shell = some name → u.find? shell = some name

theorem Within.refl (t : Names) : Within t t := fun _ _ h => h

theorem Within.trans {v : Names} (h : Within t u) (h' : Within u v) : Within t v :=
  fun s n hs => h' s n (h s n hs)

/-- Candidates that stand for other names go on doing so. -/
theorem Within.isFree_eq_false (h : Within t u) (hf : t.isFree name shell = false) :
    u.isFree name shell = false := by
  obtain ⟨other, ho, hne⟩ := isFree_eq_false_iff.1 hf
  exact isFree_eq_false_iff.2 ⟨other, h _ _ ho, hne⟩

/-- An entry that stands where its name would be put again still does in a larger table. -/
theorem Within.shellName_eq (h : Within t u) (hs : t.shellName name = shell)
    (hu : u.find? shell = some name) : u.shellName name = shell := by
  obtain ⟨k, -, hk, -, hlt⟩ := shellName_least t name
  rw [hk] at hs
  subst hs
  -- a larger table frees none of the candidates before
  exact shellName_eq_of_least (isFree_of_find?_self hu) fun j hj => h.isFree_eq_false (hlt j hj)

/-- Every entry stands where its name would be put again. -/
def Settled (t : Names) : Prop :=
  ∀ shell name, t.find? shell = some name → t.shellName name = shell

theorem settled_empty : Settled .empty := by
  intro shell name h
  simp [Table.find?, Table.empty] at h

theorem find?_clean_self (t : Names) (name : String) :
    (t.clean name).2.find? (t.shellName name) = some name :=
  Table.find?_put_self _ _ _

theorem find?_clean_of_ne (t : Names) (name : String) (h : shell ≠ t.shellName name) :
    (t.clean name).2.find? shell = t.find? shell :=
  Table.find?_put_of_ne _ _ h

/-- **Naming removes and changes no entry.** -/
theorem within_clean (t : Names) (name : String) : Within t (t.clean name).2 := by
  intro shell other h
  by_cases hs : shell = t.shellName name
  · subst hs
    -- a candidate that was free although it is an entry stands for the same name
    have hfree := isFree_shellName t name
    simp only [isFree, h, beq_iff_eq] at hfree
    rw [find?_clean_self, hfree]
  · rw [find?_clean_of_ne t name hs]; exact h

/-- **Naming keeps a table settled.** -/
theorem Settled.clean (ht : Settled t) (name : String) : Settled (t.clean name).2 := by
  intro shell other h
  by_cases hs : shell = t.shellName name
  · subst hs
    obtain rfl : name = other := by
      rw [find?_clean_self] at h; exact Option.some.inj h
    exact (within_clean t name).shellName_eq rfl h
  · rw [find?_clean_of_ne t name hs] at h
    exact (within_clean t name).shellName_eq (ht _ _ h) (within_clean t name _ _ h)

/-- In a settled table a shell name stands for one name, and a name has one shell name. -/
theorem Settled.eq_iff (ht : Settled t) {s₁ s₂ n₁ n₂ : String} (h₁ : t.find? s₁ = some n₁)
    (h₂ : t.find? s₂ = some n₂) : s₁ = s₂ ↔ n₁ = n₂ := by
  constructor
  · rintro rfl
    exact Option.some.inj (h₁.symm.trans h₂)
  · rintro rfl
    exact (ht _ _ h₁).symm.trans (ht _ _ h₂)

/-- Some shell name stands for the name. -/
def Knows (t : Names) (name : String) : Prop :=
  ∃ shell, t.find? shell = some name

theorem Within.knows (h : Within t u) (hk : Knows t name) : Knows u name :=
  hk.imp fun s hs => h s name hs

theorem knows_clean (t : Names) (name : String) : Knows (t.clean name).2 name :=
  ⟨_, find?_clean_self t name⟩

theorem Settled.find?_shellName (ht : Settled t) (hk : Knows t name) :
    t.find? (t.shellName name) = some name := by
  obtain ⟨s, hs⟩ := hk
  rw [ht s name hs]; exact hs

end Names

open Names

variable {α β : Type}

/-- The table that a computation leaves. -/
def Naming.table (m : Naming α) (t : Names) : Names := (m.run.run t).2

/-- The result of a computation. -/
def Naming.result (m : Naming α) (t : Names) : Except Failure α := (m.run.run t).1

/-- A run of a sequence is a run of its first part and, if that gives a result, one of its second
part from the table left. -/
theorem Naming.run_bind (m : Naming α) (k : α → Naming β) (t : Names) :
    (m >>= k).run.run t = match m.run.run t with
      | (.ok a, t') => (k a).run.run t'
      | (.error e, t') => (.error e, t') := by
  obtain ⟨r, t', hr⟩ : ∃ r t', m t = (r, t') := ⟨_, _, rfl⟩
  show (match m t with | (r, t') => ExceptT.bindCont k r t') = match m t with
    | (.ok a, t') => k a t'
    | (.error e, t') => (.error e, t')
  rw [hr]
  cases r <;> rfl

theorem Naming.bind_of_ok {m : Naming α} {t : Names} {a : α} (k : α → Naming β)
    (h : m.result t = .ok a) :
    (m >>= k).table t = (k a).table (m.table t) ∧
      (m >>= k).result t = (k a).result (m.table t) := by
  have hp : m.run.run t = (.ok a, m.table t) := Prod.ext h rfl
  unfold Naming.table Naming.result
  rw [Naming.run_bind, hp]
  exact ⟨rfl, rfl⟩

theorem Naming.bind_of_error {m : Naming α} {t : Names} {e : Failure} (k : α → Naming β)
    (h : m.result t = .error e) :
    (m >>= k).table t = m.table t ∧ (m >>= k).result t = .error e := by
  have hp : m.run.run t = (.error e, m.table t) := Prod.ext h rfl
  unfold Naming.table Naming.result
  rw [Naming.run_bind, hp]
  exact ⟨rfl, rfl⟩

/-- A sequence that gives a result is a run of both parts. -/
theorem Naming.bind_eq_ok {m : Naming α} {k : α → Naming β} {t : Names} {b : β}
    (h : (m >>= k).result t = .ok b) :
    ∃ a, m.result t = .ok a ∧ (k a).result (m.table t) = .ok b ∧
      (m >>= k).table t = (k a).table (m.table t) := by
  cases hr : m.result t with
  | error e => rw [(Naming.bind_of_error k hr).2] at h; cases h
  | ok a =>
    rw [(Naming.bind_of_ok k hr).2] at h
    exact ⟨a, rfl, h, (Naming.bind_of_ok k hr).1⟩

theorem Naming.table_map (m : Naming α) (g : α → β) (t : Names) : (g <$> m).table t = m.table t := by
  rw [map_eq_pure_bind]
  cases hr : m.result t with
  | error e => exact (Naming.bind_of_error _ hr).1
  | ok a => exact (Naming.bind_of_ok _ hr).1

/-- `m` takes names from its table only, and its result is that of `f` for the names in any settled
table that has all entries `m` leaves. -/
structure Follows (m : Naming α) (f : (String → String) → Except Failure α) : Prop where
  within : ∀ t, Within t (m.table t)
  settled : ∀ t, Settled t → Settled (m.table t)
  result : ∀ t u, Settled u → Within (m.table t) u → m.result t = f u.shellName

namespace Follows

theorem pure (a : α) : Follows (Pure.pure a) fun _ => .ok a :=
  ⟨fun t => .refl t, fun _ h => h, fun _ _ _ _ => rfl⟩

theorem throw (f : Failure) : Follows (α := α) (MonadExcept.throw f) fun _ => .error f :=
  ⟨fun t => .refl t, fun _ h => h, fun _ _ _ _ => rfl⟩

/-- A naming gives the name that every later table has. -/
theorem cleanName (name : String) : Follows (cleanName name) fun σ => .ok (σ name) := by
  refine ⟨fun t => within_clean t name, fun t ht => ht.clean name, ?_⟩
  intro t u hu h
  -- the new entry is still there in `u`, where a settled table has the name
  have hs := hu _ _ (h _ _ (find?_clean_self t name))
  exact congrArg Except.ok hs.symm

/-- **One computation after the other.** -/
theorem bind {m : Naming α} {f : (String → String) → Except Failure α} {k : α → Naming β}
    {g : α → (String → String) → Except Failure β} (hm : Follows m f) (hk : ∀ a, Follows (k a) (g a)) :
    Follows (m >>= k) fun σ => f σ >>= fun a => g a σ := by
  refine ⟨fun t => ?_, fun t ht => ?_, fun t u hu h => ?_⟩
  · cases hr : m.result t with
    | error e => rw [(Naming.bind_of_error k hr).1]; exact hm.within t
    | ok a => rw [(Naming.bind_of_ok k hr).1]; exact (hm.within t).trans ((hk a).within _)
  · cases hr : m.result t with
    | error e => rw [(Naming.bind_of_error k hr).1]; exact hm.settled t ht
    | ok a => rw [(Naming.bind_of_ok k hr).1]; exact (hk a).settled _ (hm.settled t ht)
  · cases hr : m.result t with
    | error e =>
      rw [(Naming.bind_of_error k hr).1] at h
      rw [(Naming.bind_of_error k hr).2, ← hm.result t u hu h, hr]
      rfl
    | ok a =>
      rw [(Naming.bind_of_ok k hr).1] at h
      rw [(Naming.bind_of_ok k hr).2, ← hm.result t u hu (((hk a).within _).trans h), hr]
      exact (hk a).result _ u hu h

theorem map {m : Naming α} {f : (String → String) → Except Failure α} (h : Follows m f) (g : α → β) :
    Follows (g <$> m) fun σ => g <$> f σ := by
  have hb := h.bind (k := fun a => Pure.pure (g a)) fun a => Follows.pure (g a)
  rw [← map_eq_pure_bind] at hb
  exact hb

end Follows

/-- Where `m` gives a result, the names `ns` are known afterwards. -/
def Registers (m : Naming α) (ns : List String) : Prop :=
  ∀ t a, m.result t = .ok a → ∀ n ∈ ns, Knows (m.table t) n

namespace Registers

theorem nil (m : Naming α) : Registers m [] := fun _ _ _ _ hn => absurd hn List.not_mem_nil

theorem cleanName (name : String) : Registers (cleanName name) [name] := by
  intro t a _ n hn
  rw [List.mem_singleton.1 hn]
  exact knows_clean t name

theorem bind {m : Naming α} {k : α → Naming β} {ns ns' : List String} (hm : Registers m ns)
    (hk : ∀ a, Registers (k a) ns') (hw : ∀ a t, Within t ((k a).table t)) :
    Registers (m >>= k) (ns ++ ns') := by
  intro t b hb n hn
  obtain ⟨a, ha, hka, ht⟩ := Naming.bind_eq_ok hb
  rw [ht]
  rcases List.mem_append.1 hn with hn | hn
  · exact (hw a _).knows (hm t a ha n hn)
  · exact hk a _ b hka n hn

theorem bind_pure {m : Naming α} {ns : List String} (hm : Registers m ns) (g : α → β) :
    Registers (m >>= fun a => Pure.pure (g a)) ns := by
  have h := hm.bind (k := fun a => Pure.pure (g a)) (fun a => .nil _)
    fun a => (Follows.pure (g a)).within
  rwa [List.append_nil] at h

theorem map {m : Naming α} {ns : List String} (hm : Registers m ns) (g : α → β) :
    Registers (g <$> m) ns := by
  rw [map_eq_pure_bind]
  exact hm.bind_pure g

end Registers

/-- `m` gives a result from every table. -/
def Succeeds (m : Naming α) : Prop :=
  ∀ t, ∃ a, m.result t = .ok a

namespace Succeeds

theorem pure (a : α) : Succeeds (Pure.pure a) := fun _ => ⟨a, rfl⟩

theorem cleanName (name : String) : Succeeds (cleanName name) := fun t => ⟨t.shellName name, rfl⟩

theorem ofExcept {r : Except Failure α} (h : ∃ a, r = .ok a) : Succeeds (Naming.ofExcept r) := fun _ => h

theorem bind {m : Naming α} {k : α → Naming β} (hm : Succeeds m) (hk : ∀ a, Succeeds (k a)) :
    Succeeds (m >>= k) := by
  intro t
  obtain ⟨a, ha⟩ := hm t
  obtain ⟨b, hb⟩ := hk a (m.table t)
  exact ⟨b, by rw [(Naming.bind_of_ok k ha).2, hb]⟩

theorem map {m : Naming α} (hm : Succeeds m) (g : α → β) : Succeeds (g <$> m) := by
  rw [map_eq_pure_bind]
  exact hm.bind fun a => .pure (g a)

/-- A computation for each member of a list. -/
theorem mapM {f : α → Naming β} {l : List α} (h : ∀ a ∈ l, Succeeds (f a)) : Succeeds (l.mapM f) := by
  induction l with
  | nil => exact .pure []
  | cons a l ih =>
    rw [List.mapM_cons]
    exact (h a List.mem_cons_self).bind fun b =>
      (ih fun a' ha' => h a' (List.mem_cons_of_mem a ha')).bind fun bs => .pure (b :: bs)

end Succeeds

end Justfile.Shell
