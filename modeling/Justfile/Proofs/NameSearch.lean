import Justfile.Proofs.Naming

/-!
# The search for a shell name

A name gets its shell name by a search without a bound of its own: as long as the shell name that is tried stands for
another name, the next number is tried. Here the search is a relation between its states, so that only the table can
end it, and the table may be any.

* `Search.Round`, `Search.Rounds`: one round of the search, and several.
* `rounds_iff`: after `n` rounds the candidate with the number `n` is tried, and all before it are taken.
* `Search.Rounds.le_size`: a search has no more rounds than the table has entries.
* `search_ends`: where the search ends, that naming gives its result, and what it does to the table.
-/

namespace Justfile.Shell

open Names

/-- A search: the shell name that is tried, and the number that comes next. -/
structure Search where
  tried : String
  next : Nat

namespace Search

/-- The search for a name begins with its dashless form. -/
def start (name : String) : Search := ⟨dashless name, 2⟩

/-- One round of the search: the shell name tried stands for another name, and the dashless form with the next number
takes its place. -/
inductive Round (t : Names) (name : String) : Search → Search → Prop where
  | taken {s : Search} {other : String} (h : t.find? s.tried = some other) (hne : other ≠ name) :
      Round t name s ⟨dashless name ++ "_" ++ toString s.next, s.next + 1⟩

/-- A number of rounds, one after the other. -/
inductive Rounds (t : Names) (name : String) : Nat → Search → Search → Prop where
  | none (s : Search) : Rounds t name 0 s s
  | more {n : Nat} {s s₁ s₂ : Search} (h : Rounds t name n s s₁) (hround : Round t name s₁ s₂) :
      Rounds t name (n + 1) s s₂

variable {t : Names} {name : String} {n : Nat} {s : Search}

/-- There is a next round just if the shell name tried is not free. -/
theorem exists_round_iff : (∃ s', Round t name s s') ↔ t.isFree name s.tried = false := by
  rw [isFree_eq_false_iff]
  constructor
  · rintro ⟨_, ⟨h, hne⟩⟩
    exact ⟨_, h, hne⟩
  · rintro ⟨other, h, hne⟩
    exact ⟨_, .taken h hne⟩

/-- **What is tried after some rounds.** -/
theorem rounds_iff : Rounds t name n (start name) s ↔
    s = ⟨candidate (dashless name) n, n + 2⟩ ∧ ∀ j < n, t.isFree name (candidate (dashless name) j) = false := by
  induction n generalizing s with
  | zero =>
    constructor
    · rintro ⟨⟩
      exact ⟨rfl, fun j hj => absurd hj (Nat.not_lt_zero j)⟩
    · rintro ⟨rfl, -⟩
      exact .none _
  | succ n ih =>
    constructor
    · intro h
      cases h with
      | more h hround =>
        obtain ⟨rfl, hlt⟩ := ih.1 h
        have htaken := exists_round_iff.1 ⟨_, hround⟩
        cases hround
        refine ⟨rfl, fun j hj => ?_⟩
        rcases Nat.lt_succ_iff_lt_or_eq.1 hj with hj | rfl
        · exact hlt j hj
        · exact htaken
    · rintro ⟨rfl, hlt⟩
      obtain ⟨other, h, hne⟩ := isFree_eq_false_iff.1 (hlt n (Nat.lt_succ_self n))
      exact .more (ih.2 ⟨rfl, fun j hj => hlt j (Nat.lt_succ_of_lt hj)⟩) (.taken h hne)

/-- **A search has no more rounds than the table has entries.** -/
theorem Rounds.le_size (h : Rounds t name n (start name) s) : n ≤ t.size := by
  by_contra hn
  have hlt := (rounds_iff.1 h).2
  -- as many candidates as there are entries are taken, so the next one is free
  have hfree := isFree_of_all_taken t name (dashless name) fun j hj => hlt j (by omega)
  rw [hlt t.size (by omega)] at hfree
  cases hfree

end Search

/-- A value that is there already is put where it is. -/
theorem put_of_find?_eq_some {t : Names} {shell name : String} (h : t.find? shell = some name) :
    t.put shell name = t := by
  obtain ⟨entries⟩ := t
  simp only [Table.find?, Table.put, Table.mk.injEq] at h ⊢
  induction entries with
  | nil => cases h
  | cons e rest ih =>
    obtain ⟨k, v⟩ := e
    rw [List.lookup_cons] at h
    rw [Table.putIn]
    cases hk : shell == k with
    | true =>
      rw [hk] at h
      rw [if_pos rfl, Option.some.inj h]
    | false =>
      rw [hk] at h
      rw [if_neg Bool.false_ne_true, ih h]

/-- A new key comes last, with its value. -/
theorem put_of_find?_eq_none {t : Names} {shell : String} (h : t.find? shell = none) (name : String) :
    t.put shell name = ⟨t.entries ++ [(shell, name)]⟩ := by
  obtain ⟨entries⟩ := t
  simp only [Table.find?, Table.put, Table.mk.injEq] at h ⊢
  induction entries with
  | nil => rfl
  | cons e rest ih =>
    obtain ⟨k, v⟩ := e
    rw [List.lookup_cons] at h
    rw [Table.putIn]
    cases hk : shell == k with
    | true =>
      rw [hk] at h
      cases h
    | false =>
      rw [hk] at h
      rw [if_neg Bool.false_ne_true, ih h, List.cons_append]

/-- **The search for a shell name ends, at the first free candidate.** For every table and every name, there is a
search that cannot go on, it has at most as many rounds as the table has entries, and no search has more rounds. Where
it ends, the dashless name is tried, or the one with the number two, three and so on, by the number of rounds. That
is the first of these that is no key of the table or stands for the name. Naming gives it, and leaves the table as it
is or with one entry more. -/
theorem search_ends (t : Names) (lead name : String) :
    ∃ n s, Search.Rounds t (lead ++ name) n (.start (lead ++ name)) s ∧ (∀ s', ¬ Search.Round t (lead ++ name) s s') ∧
      n ≤ t.size ∧ (∀ m s', Search.Rounds t (lead ++ name) m (.start (lead ++ name)) s' → m ≤ n) ∧
      s.tried = candidate (dashless (lead ++ name)) n ∧
      (t.find? s.tried = none ∨ t.find? s.tried = some (lead ++ name)) ∧
      (∀ j < n, ∃ other, t.find? (candidate (dashless (lead ++ name)) j) = some other ∧ other ≠ lead ++ name) ∧
      (cleanName (lead ++ name)).result t = .ok s.tried ∧
      (cleanName (lead ++ name)).table t =
        if t.find? s.tried = some (lead ++ name) then t else ⟨t.entries ++ [(s.tried, lead ++ name)]⟩ := by
  generalize lead ++ name = full
  obtain ⟨n, -, hname, hfree, hlt⟩ := shellName_least t full
  have hrounds : Search.Rounds t full n (.start full) ⟨candidate (dashless full) n, n + 2⟩ :=
    Search.rounds_iff.2 ⟨rfl, hlt⟩
  have hfound : t.find? (candidate (dashless full) n) = none ∨ t.find? (candidate (dashless full) n) = some full := by
    unfold isFree at hfree
    split at hfree
    · exact .inl ‹_›
    · rename_i other hother
      exact .inr (hother.trans (congrArg some (beq_iff_eq.1 hfree)))
  refine ⟨n, _, hrounds, fun s' hround => ?_, hrounds.le_size, fun m s' hm => ?_, rfl, hfound, fun j hj => ?_, ?_, ?_⟩
  · have htaken := Search.exists_round_iff.1 ⟨s', hround⟩
    rw [hfree] at htaken
    cases htaken
  · -- a longer search would have passed a free candidate
    by_contra hmn
    have htaken := (Search.rounds_iff.1 hm).2 n (by omega)
    rw [hfree] at htaken
    cases htaken
  · exact isFree_eq_false_iff.1 (hlt j hj)
  · exact congrArg Except.ok hname
  · show (t.put (t.shellName full) full) = _
    rw [hname]
    rcases hfound with hnone | hsome
    · rw [put_of_find?_eq_none hnone, hnone, if_neg nofun]
    · rw [put_of_find?_eq_some hsome, if_pos hsome]

/-- A table that no session leaves: the third candidate for `VAR_a-b` is there, and the first two stand for others. -/
def crowdedTable : Names := ⟨[("VAR_a_b_3", "VAR_a-b"), ("VAR_a_b_2", "x"), ("VAR_a_b", "VAR_a_b")]⟩

theorem search_ends_crowded :
    ∃ n s, Search.Rounds crowdedTable ("VAR_" ++ "a-b") n (.start ("VAR_" ++ "a-b")) s ∧
      (∀ s', ¬ Search.Round crowdedTable ("VAR_" ++ "a-b") s s') ∧ n ≤ 3 ∧
      (cleanName ("VAR_" ++ "a-b")).result crowdedTable = .ok s.tried ∧ s.tried = "VAR_a_b_3" ∧
      (cleanName ("VAR_" ++ "a-b")).table crowdedTable = crowdedTable := by
  obtain ⟨n, s, hrounds, hend, hn, -, -, -, -, hresult, htable⟩ := search_ends crowdedTable "VAR_" "a-b"
  have hgiven : (cleanName ("VAR_" ++ "a-b")).result crowdedTable = .ok "VAR_a_b_3" := by decide +kernel
  have htried : s.tried = "VAR_a_b_3" := Except.ok.inj (hresult.symm.trans hgiven)
  refine ⟨n, s, hrounds, hend, hn, hresult, htried, ?_⟩
  rw [htable, htried]
  exact if_pos (by decide +kernel)

end Justfile.Shell
