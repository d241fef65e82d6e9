import Justfile.Proofs.Comments
import Justfile.Proofs.Gaps

/-!
# Repeated runs on a text with more blanks

* `Goes`, `Fails`, `Runs`: one run of a parser, and runs one after the other, without a listener.
* `ReadsAll p y as y'`: the parser reads one value after the other, whatever follows them.
* `Runs.readsAll`: what is run on one side of a gap is read on the same side of the text with the blanks.
-/

namespace Justfile.Parsing

open Justfile.Parsing.Parser

variable {ω α : Type}

/-- Without a listener the parser goes from one place to another and gives a value. -/
def Goes (p : Parser Unit α) (c : Cursor) (a : α) (c' : Cursor) : Prop :=
  ∃ far, p.run c () = (.done a c' far, ())

/-- Without a listener the parser fails at a place. -/
def Fails (p : Parser Unit α) (c : Cursor) : Prop :=
  ∃ far, p.run c () = (.failed far, ())

/-- The parser goes on and on, each time from where it stopped the last time. -/
inductive Runs (p : Parser Unit α) : Cursor → List α → Cursor → Prop
  | nil {c : Cursor} : Runs p c [] c
  | cons {c c₁ c₂ : Cursor} {a : α} {as : List α} : Goes p c a c₁ → Runs p c₁ as c₂ → Runs p c (a :: as) c₂

/-- The parser reads one value after the other, whatever comes after them. -/
inductive ReadsAll (p : Parser ω α) : List Char → List α → List Char → Prop
  | nil {y : List Char} : ReadsAll p y [] y
  | cons {y y₁ y₂ : List Char} {a : α} {as : List α} : Reads p y a y₁ → y₁.length < y.length → ReadsAll p y₁ as y₂ →
      ReadsAll p y (a :: as) y₂

theorem ReadsAll.append {p : Parser ω α} {y y₁ y₂ : List Char} {as bs : List α} (h : ReadsAll p y as y₁)
    (h' : ReadsAll p y₁ bs y₂) : ReadsAll p y (as ++ bs) y₂ := by
  induction h with
  | nil => exact h'
  | cons hone hlt _ ih => exact .cons hone hlt (ih h')

theorem ReadsAll.repeats {p : Parser ω α} {y y₁ y₂ : List Char} {as bs : List α} (h : ReadsAll p y as y₁)
    (h' : Repeats p y₁ bs y₂) : Repeats p y (as ++ bs) y₂ := by
  induction h with
  | nil => exact h'
  | cons hone hlt _ ih => exact .step hone hlt (ih h')

/-- What is read first comes first in the result of a repetition. -/
theorem ReadsAll.manyLoop_prefix {p : Parser ω α} {y y' : List Char} {as : List α} (h : ReadsAll p y as y') :
    ∀ n acc far pos t bs next far' t', y.length < n →
      manyLoop p n acc far ⟨y, pos⟩ t = (.done bs next far', t') → acc.reverse ++ as <+: bs := by
  induction h with
  | nil =>
    intro n acc far pos t bs next far' t' _ hrun
    rw [List.append_nil]
    exact Parsing.manyLoop_prefix _ _ _ _ _ _ _ _ _ hrun
  | cons hone hlt _ ih =>
    rename_i a as _
    intro n acc far pos t bs next far' t' hn hrun
    obtain ⟨n, rfl⟩ : ∃ m, n = m + 1 := ⟨n - 1, by omega⟩
    obtain ⟨pos₁, far₁, t₁, hread⟩ := hone pos t
    rw [manyLoop, hread] at hrun
    have hmore := ih n (a :: acc) _ pos₁ t₁ _ _ _ _ (by omega) hrun
    rwa [List.reverse_cons, List.append_assoc, List.singleton_append] at hmore

variable {p : Parser Unit α} {c c' : Cursor} {as bs : List α}

namespace Goes

variable {β : Type} {f : α → Parser Unit β} {a : α} {b : β} {c₁ : Cursor}

theorem bind (hp : Goes p c a c₁) (hf : Goes (f a) c₁ b c') : Goes (p >>= f) c b c' := by
  obtain ⟨far, hp⟩ := hp
  obtain ⟨far', hf⟩ := hf
  refine ⟨max far far', ?_⟩
  rw [run_bind, hp]
  simp only [hf]
  rfl

theorem parts (h : Goes (p >>= f) c b c') : ∃ a c₁, Goes p c a c₁ ∧ Goes (f a) c₁ b c' := by
  obtain ⟨far, h⟩ := h
  obtain ⟨a, c₁, far₁, t₁, far₂, hp, hf⟩ := bind_eq_done h
  exact ⟨a, c₁, ⟨far₁, hp⟩, far₂, hf⟩

theorem pure (a : α) (c : Cursor) : Goes (Pure.pure a) c a c := ⟨0, rfl⟩

theorem of_pure {a' : α} (h : Goes (Pure.pure a') c a c') : a = a' ∧ c' = c := by
  obtain ⟨far, h⟩ := h
  cases h
  exact ⟨rfl, rfl⟩

theorem of_traced [ToDatum α] {rule : String} (h : Goes (traced rule p) c a c') : Goes p c a c' := by
  obtain ⟨far, h⟩ := h
  obtain ⟨t₁, h⟩ := tracedBy_eq_done h
  exact ⟨far, h⟩

theorem of_peek (h : Goes (peek p) c a c') : c' = c ∧ ∃ c₁, Goes p c a c₁ := by
  obtain ⟨far, h⟩ := h
  obtain ⟨rfl, c₁, far₁, h⟩ := peek_eq_done h
  exact ⟨rfl, c₁, far₁, h⟩

theorem eq_of_reads {a' : α} {y : List Char} (h : Goes p c a c') (hread : Reads p c.rest a' y) :
    a = a' ∧ c'.rest = y := by
  obtain ⟨far, h⟩ := h
  obtain ⟨next, far', t', hread⟩ := hread c.pos ()
  have heq := h.symm.trans hread
  cases heq
  exact ⟨rfl, rfl⟩

theorem not_refuses (h : Goes p c a c') : ¬Refuses p c.rest := by
  intro hrefuse
  obtain ⟨far, h⟩ := h
  obtain ⟨far', t', hrefuse⟩ := hrefuse c.pos ()
  have heq := h.symm.trans hrefuse
  cases heq

theorem suffix {k : Nat} (hp : Advances k p) (h : Goes p c a c') : c'.rest <:+ c.rest := by
  obtain ⟨far, h⟩ := h
  exact (hp _ _ _ _ _ _ h).suffix

/-- What a parser does at one place of the text is read on the same side of the gap with the blanks. -/
theorem reads {g : Gap} (h : Goes p c a c') (hp : Carries g False False True p p) {y : List Char}
    (htwin : g.Twin c.rest y) (hside : g.Over c.rest → g.Over c'.rest) :
    ∃ y', g.Twin c'.rest y' ∧ Reads p y a y' := by
  obtain ⟨far, h⟩ := h
  obtain ⟨v, y', htwin', hread, hval⟩ := hp.done htwin (fun _ => trivial) h fun hover => .inr (hside hover)
  rw [← hval trivial hside] at hread
  exact ⟨y', htwin', hread⟩

theorem stays {g : Gap} (h : Goes p c a c') (hp : Stays g p) {y : List Char} (htwin : g.Twin c.rest y)
    (hover : g.Over c.rest) : g.Over c'.rest := by
  obtain ⟨x, -, hx, -⟩ := htwin.eq_of_over hover
  obtain ⟨far, h⟩ := h
  obtain ⟨rest, pos⟩ := c
  cases hx
  exact hp _ _ _ _ _ _ _ h

/-- After the gap nothing changes. -/
theorem reads_after {g : Gap} (h : Goes p c a c') (hp : Carries g False False True p p) (hc : c.rest <:+ g.below) :
    Reads p c.rest a c'.rest := by
  have hnot := Gap.Twin.not_over hc
  obtain ⟨y', htwin', hread⟩ := h.reads hp (.after hc) fun hover => absurd hover hnot
  have hsuffix := h.suffix hp.forward
  obtain ⟨rfl, -⟩ := htwin'.eq_of_not_over (Gap.Twin.not_over (hsuffix.trans hc))
  exact hread

end Goes

theorem Fails.refuses_after {g : Gap} (h : Fails p c) (hp : Carries g False False True p p) (hc : c.rest <:+ g.below) :
    Refuses p c.rest := by
  obtain ⟨far, h⟩ := h
  exact hp.failed (.after hc) (fun _ => trivial) h fun hover => absurd hover (Gap.Twin.not_over hc)

theorem Runs.of_manyLoop (hp : Advances 1 p) : ∀ n acc far c as next far', c.rest.length < n →
    manyLoop p n acc far c () = (.done as next far', ()) →
      ∃ vs, as = acc.reverse ++ vs ∧ Runs p c vs next ∧ Fails p next := by
  intro n
  induction n with
  | zero =>
    intro acc far c as next far' hn
    omega
  | succ n ih =>
    intro acc far c as next far' hn hrun
    rw [manyLoop] at hrun
    rcases hone : p.run c () with ⟨o, t₁⟩
    rw [hone] at hrun
    cases o with
    | done a n₁ far₁ =>
      have hapart := (hp _ _ _ _ _ _ hone).apart
      obtain ⟨vs, rfl, hruns, hend⟩ := ih (a :: acc) _ n₁ _ _ _ (by omega) hrun
      refine ⟨a :: vs, ?_, .cons ⟨far₁, hone⟩ hruns, hend⟩
      rw [List.reverse_cons, List.append_assoc, List.singleton_append]
    | failed far₁ =>
      cases hrun
      exact ⟨[], (List.append_nil _).symm, .nil, far₁, hone⟩
    | rejected recipe => cases hrun

theorem Runs.of_many (hp : Advances 1 p) (h : Goes (many p) c as c') : Runs p c as c' ∧ Fails p c' := by
  obtain ⟨far, h⟩ := h
  obtain ⟨vs, rfl, hruns⟩ := Runs.of_manyLoop hp _ _ _ _ _ _ _ (Nat.lt_succ_self _) h
  exact hruns

theorem Runs.of_many1 (hp : Advances 1 p) (h : Goes (many1 p) c as c') : Runs p c as c' ∧ Fails p c' := by
  obtain ⟨a, c₁, hone, h⟩ := h.parts
  obtain ⟨bs, c₂, hmany, h⟩ := h.parts
  obtain ⟨rfl, rfl⟩ := h.of_pure
  obtain ⟨hruns, hend⟩ := Runs.of_many hp hmany
  exact ⟨.cons hone hruns, hend⟩

theorem Runs.split (h : Runs p c (as ++ bs) c') : ∃ c₁, Runs p c as c₁ ∧ Runs p c₁ bs c' := by
  induction as generalizing c with
  | nil => exact ⟨c, .nil, h⟩
  | cons a as ih =>
    cases h with
    | cons hone h =>
      obtain ⟨c₁, h₁, h₂⟩ := ih h
      exact ⟨c₁, .cons hone h₁, h₂⟩

theorem Runs.suffix {k : Nat} (hp : Advances k p) (h : Runs p c as c') : c'.rest <:+ c.rest := by
  induction h with
  | nil => exact List.suffix_rfl
  | cons hone _ ih => exact ih.trans (hone.suffix hp)

/-- What is run on one side of the gap is read on the same side with the blanks. -/
theorem Runs.readsAll {g : Gap} (h : Runs p c as c') (hp : Carries g False False True p p) (hahead : Advances 1 p)
    {y : List Char} (htwin : g.Twin c.rest y) (hside : g.Over c.rest → g.Over c'.rest) :
    ∃ y', g.Twin c'.rest y' ∧ ReadsAll p y as y' := by
  induction h generalizing y with
  | nil => exact ⟨y, htwin, .nil⟩
  | cons hone hruns ih =>
    -- the later runs end further on, so a run that ends before the gap has all the others before it too
    have hnext := hruns.suffix hahead
    obtain ⟨y₁, htwin₁, hread⟩ := hone.reads hp htwin fun hover => (hside hover).mono hnext
    obtain ⟨y', htwin', hall⟩ := ih htwin₁ fun hover => hside (hover.mono (hone.suffix hahead))
    obtain ⟨far, hrun⟩ := hone
    exact ⟨y', htwin', .cons hread (htwin.length_lt htwin₁ (hahead _ _ _ _ _ _ hrun).apart) hall⟩

theorem Runs.readsAll_after {g : Gap} (h : Runs p c as c') (hp : Carries g False False True p p)
    (hahead : Advances 1 p) (hc : c.rest <:+ g.below) : ReadsAll p c.rest as c'.rest := by
  obtain ⟨y', htwin', hall⟩ := h.readsAll hp hahead (.after hc) fun hover => absurd hover (Gap.Twin.not_over hc)
  obtain ⟨rfl, -⟩ := htwin'.eq_of_not_over (Gap.Twin.not_over ((h.suffix hahead).trans hc))
  exact hall

end Justfile.Parsing
