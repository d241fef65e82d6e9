import Mathlib
import Justfile.Parsing.Lexeme

/-!
# What parsers give

* `bind_eq_done`, `orElse_eq_done`, `manyLoop_eq_done` and so on: what the success of a combination
  says about its parts.
* `untilRound`: the round of a repetition up to an end that reads another value.
* `Yields p P`: every value that `p` gives satisfies `P`. One rule for each combinator.
* `NeverFails p`: `p` gives a value or ends the parse, so that no alternative to it is tried.
-/

namespace Justfile.Parsing

open Justfile.Parsing.Parser

variable {ω α β : Type}

namespace Parser

variable {p : Parser ω α} {c next : Cursor} {t t' : ω} {far : Nat}

theorem run_bind (p : Parser ω α) (f : α → Parser ω β) (c : Cursor) (t : ω) :
    (p >>= f).run c t = match p.run c t with
      | (.done a next far, t') => (((f a).run next t').1.join far, ((f a).run next t').2)
      | (.failed far, t') => (.failed far, t')
      | (.rejected recipe, t') => (.rejected recipe, t') := rfl

theorem run_orElse (p q : Parser ω α) (c : Cursor) (t : ω) :
    (p <|> q).run c t = match p.run c t with
      | (.failed far, t') => ((q.run c t').1.join far, (q.run c t').2)
      | r => r := rfl

theorem join_eq_done {o : Outcome α} {far' : Nat} {a : α} (h : o.join far = .done a next far') :
    ∃ far'', o = .done a next far'' := by
  cases o with
  | done b n far'' => cases h; exact ⟨far'', rfl⟩
  | failed far'' => cases h
  | rejected recipe => cases h

theorem join_eq_failed {o : Outcome α} {far' : Nat} (h : o.join far = .failed far') :
    ∃ far'', o = .failed far'' := by
  cases o with
  | done b n far'' => cases h
  | failed far'' => exact ⟨far'', rfl⟩
  | rejected recipe => cases h

theorem bind_eq_failed {f : α → Parser ω β} (h : (p >>= f).run c t = (.failed far, t')) :
    p.run c t = (.failed far, t') ∨ ∃ a n far₁ t₁ far₂, p.run c t = (.done a n far₁, t₁) ∧
      (f a).run n t₁ = (.failed far₂, t') := by
  rw [run_bind] at h
  rcases hp : p.run c t with ⟨o, t₁⟩
  rw [hp] at h
  cases o with
  | done a n far₁ =>
    obtain ⟨ho, ht⟩ := Prod.mk.inj h
    obtain ⟨far₂, ho⟩ := join_eq_failed ho
    exact .inr ⟨a, n, far₁, t₁, far₂, rfl, Prod.ext ho ht⟩
  | failed far₁ => cases h; exact .inl rfl
  | rejected recipe => cases h

theorem orElse_eq_failed {q : Parser ω α} (h : (p <|> q).run c t = (.failed far, t')) :
    ∃ far₁ t₁ far₂, p.run c t = (.failed far₁, t₁) ∧ q.run c t₁ = (.failed far₂, t') := by
  rw [run_orElse] at h
  rcases hp : p.run c t with ⟨o, t₁⟩
  rw [hp] at h
  cases o with
  | done b n far₁ => cases h
  | failed far₁ =>
    obtain ⟨ho, ht⟩ := Prod.mk.inj h
    obtain ⟨far₂, ho⟩ := join_eq_failed ho
    exact ⟨far₁, t₁, far₂, rfl, Prod.ext ho ht⟩
  | rejected recipe => cases h

theorem bind_eq_done {f : α → Parser ω β} {b : β} (h : (p >>= f).run c t = (.done b next far, t')) :
    ∃ a n far₁ t₁ far₂, p.run c t = (.done a n far₁, t₁) ∧
      (f a).run n t₁ = (.done b next far₂, t') := by
  rw [run_bind] at h
  rcases hp : p.run c t with ⟨o, t₁⟩
  rw [hp] at h
  cases o with
  | done a n far₁ =>
    obtain ⟨ho, ht⟩ := Prod.mk.inj h
    obtain ⟨far₂, ho⟩ := join_eq_done ho
    exact ⟨a, n, far₁, t₁, far₂, rfl, Prod.ext ho ht⟩
  | failed far₁ => cases h
  | rejected recipe => cases h

theorem orElse_eq_done {q : Parser ω α} {a : α} (h : (p <|> q).run c t = (.done a next far, t')) :
    p.run c t = (.done a next far, t') ∨
      ∃ far₁ t₁ far₂, p.run c t = (.failed far₁, t₁) ∧ q.run c t₁ = (.done a next far₂, t') := by
  rw [run_orElse] at h
  rcases hp : p.run c t with ⟨o, t₁⟩
  rw [hp] at h
  cases o with
  | done b n far₁ => exact .inl h
  | failed far₁ =>
    obtain ⟨ho, ht⟩ := Prod.mk.inj h
    obtain ⟨far₂, ho⟩ := join_eq_done ho
    exact .inr ⟨far₁, t₁, far₂, rfl, Prod.ext ho ht⟩
  | rejected recipe => cases h

theorem optional_eq_done {o : Option α} (h : (optional p).run c t = (.done o next far, t')) :
    (∃ a, o = some a ∧ p.run c t = (.done a next far, t')) ∨
      (o = none ∧ next = c ∧ p.run c t = (.failed far, t')) := by
  simp only [optional] at h
  rcases hp : p.run c t with ⟨r, t₁⟩
  rw [hp] at h
  cases r with
  | done a n far₁ => cases h; exact .inl ⟨a, rfl, rfl⟩
  | failed far₁ => cases h; exact .inr ⟨rfl, rfl, rfl⟩
  | rejected recipe => cases h

theorem tracedBy_eq_done [Listener ω] {rule : String} {data : α → Datum} {a : α}
    (h : (tracedBy rule data p).run c t = (.done a next far, t')) :
    ∃ t₁, p.run c t = (.done a next far, t₁) := by
  simp only [tracedBy] at h
  rcases hp : p.run c t with ⟨r, t₁⟩
  rw [hp] at h
  cases r with
  | done b n far₁ => cases h; exact ⟨t₁, rfl⟩
  | failed far₁ => cases h
  | rejected recipe => cases h

end Parser

/-- The round of a repetition up to an end that reads another value. -/
def untilRound (p : Parser ω α) (stop : Parser ω β) (least n count : Nat) (acc : List α) (c : Cursor) (t : ω) :
    Outcome (List α) × ω :=
  match p.run c t with
  | (.done a next _, t') => untilLoop p stop least n (count + 1) (a :: acc) next t'
  | (.failed _, t') => (.failed c.pos, t')
  | (.rejected recipe, t') => (.rejected recipe, t')

theorem untilLoop_succ (p : Parser ω α) (stop : Parser ω β) (least n count : Nat) (acc : List α) (c : Cursor)
    (t : ω) : untilLoop p stop least (n + 1) count acc c t = match stop.run c t with
      | (.done _ _ _, t') =>
        if least ≤ count then (.done acc.reverse c 0, t') else untilRound p stop least n count acc c t'
      | (.failed _, t') => untilRound p stop least n count acc c t'
      | (.rejected recipe, t') => (.rejected recipe, t') := by
  rw [untilLoop]
  rcases stop.run c t with ⟨o, t₁⟩
  cases o with
  | done b next far =>
    simp only [Bool.true_and, decide_eq_true_eq]
    rfl
  | failed far => rfl
  | rejected recipe => rfl

variable {P P' : α → Prop} {Q : β → Prop}

/-- Every value that a parser gives satisfies `P`. -/
def Yields (p : Parser ω α) (P : α → Prop) : Prop :=
  ∀ c t a next far t', p.run c t = (.done a next far, t') → P a

namespace Yields

theorem trivial (p : Parser ω α) : Yields p fun _ => True := fun _ _ _ _ _ _ _ => True.intro

theorem mono {p : Parser ω α} (h : Yields p P) (hP : ∀ a, P a → P' a) : Yields p P' :=
  fun c t a next far t' hr => hP a (h c t a next far t' hr)

theorem and {p : Parser ω α} (h : Yields p P) (h' : Yields p P') : Yields p fun a => P a ∧ P' a :=
  fun c t a next far t' hr => ⟨h c t a next far t' hr, h' c t a next far t' hr⟩

theorem reject (recipe : String) (P : α → Prop) : Yields (reject recipe : Parser ω α) P := by
  intro c t a next far t' hr
  cases (Prod.mk.inj hr).1

theorem satisfy (ok : Char → Bool) : Yields (satisfy ok : Parser ω Char) fun c => ok c = true := by
  intro c t a next far t' hr
  simp only [Parser.satisfy] at hr
  split at hr
  · split at hr
    · rename_i x rest _ hx
      obtain ⟨ho, -⟩ := Prod.mk.inj hr
      cases ho
      exact hx
    · cases (Prod.mk.inj hr).1
  · cases (Prod.mk.inj hr).1

theorem pure {a : α} (h : P a) : Yields (Pure.pure a : Parser ω α) P := by
  intro c t b next far t' hr
  obtain ⟨hb, -⟩ := Prod.mk.inj hr
  cases hb
  exact h

theorem bind {p : Parser ω α} {f : α → Parser ω β} (hp : Yields p P)
    (hf : ∀ a, P a → Yields (f a) Q) : Yields (p >>= f) Q := by
  intro c t b next far t' hr
  obtain ⟨a, n, far₁, t₁, far₂, h₁, h₂⟩ := bind_eq_done hr
  exact hf a (hp _ _ _ _ _ _ h₁) _ _ _ _ _ _ h₂

/-- A part whose value does not matter. -/
theorem after (p : Parser ω α) {f : α → Parser ω β} (hf : ∀ a, Yields (f a) Q) :
    Yields (p >>= f) Q :=
  (trivial p).bind fun a _ => hf a

theorem map {p : Parser ω α} {f : α → β} (hp : Yields p fun a => Q (f a)) : Yields (f <$> p) Q :=
  hp.bind fun _ h => pure h

theorem orElse {p q : Parser ω α} (hp : Yields p P) (hq : Yields q P) : Yields (p <|> q) P := by
  intro c t a next far t' hr
  rcases orElse_eq_done hr with h | ⟨far₁, t₁, far₂, -, h⟩
  · exact hp _ _ _ _ _ _ h
  · exact hq _ _ _ _ _ _ h

theorem optional {p : Parser ω α} (hp : Yields p P) : Yields (optional p) fun o => ∀ a ∈ o, P a := by
  intro c t o next far t' hr a ha
  rcases optional_eq_done hr with ⟨b, rfl, h⟩ | ⟨rfl, -, -⟩
  · cases ha; exact hp _ _ _ _ _ _ h
  · cases ha

theorem tracedBy [Listener ω] {rule : String} {data : α → Datum} {p : Parser ω α}
    (hp : Yields p P) : Yields (tracedBy rule data p) P := by
  intro c t a next far t' hr
  obtain ⟨t₁, h⟩ := tracedBy_eq_done hr
  exact hp _ _ _ _ _ _ h

theorem traced [Listener ω] [ToDatum α] {rule : String} {p : Parser ω α} (hp : Yields p P) :
    Yields (traced rule p) P :=
  hp.tracedBy

/-- The values of a repetition, with those found before. -/
theorem manyLoop {p : Parser ω α} (hp : Yields p P) :
    ∀ n acc far c t as next far' t', (∀ a ∈ acc, P a) →
      manyLoop p n acc far c t = (.done as next far', t') → ∀ a ∈ as, P a := by
  intro n
  induction n with
  | zero =>
    intro acc far c t as next far' t' hacc hr
    cases hr
    exact fun a ha => hacc a (List.mem_reverse.1 ha)
  | succ n ih =>
    intro acc far c t as next far' t' hacc hr
    rw [Parser.manyLoop] at hr
    rcases hrun : p.run c t with ⟨r, t₁⟩
    rw [hrun] at hr
    cases r with
    | done a c₁ far₁ =>
      refine ih _ _ _ _ _ _ _ _ ?_ hr
      intro b hb
      rcases List.mem_cons.1 hb with rfl | hb
      · exact hp _ _ _ _ _ _ hrun
      · exact hacc b hb
    | failed far₁ =>
      cases hr
      exact fun a ha => hacc a (List.mem_reverse.1 ha)
    | rejected recipe => cases hr

theorem many {p : Parser ω α} (hp : Yields p P) : Yields (many p) fun as => ∀ a ∈ as, P a := by
  intro c t as next far t' hr
  exact hp.manyLoop _ _ _ _ _ _ _ _ _ (fun a ha => absurd ha List.not_mem_nil) hr

theorem many1 {p : Parser ω α} (hp : Yields p P) : Yields (many1 p) fun as => ∀ a ∈ as, P a :=
  hp.bind fun _ ha => hp.many.bind fun _ has => pure (List.forall_mem_cons.2 ⟨ha, has⟩)

theorem many1_ne_nil (p : Parser ω α) : Yields (Parser.many1 p) fun as => as ≠ [] :=
  after _ fun _ => after _ fun _ => pure (List.cons_ne_nil _ _)

/-- The values of a repetition up to an end, with those found before. -/
theorem untilLoop {p : Parser ω α} (hp : Yields p P) {stop : Parser ω β} {least : Nat} :
    ∀ n count acc c t as next far t', acc.length = count → (∀ a ∈ acc, P a) →
      untilLoop p stop least n count acc c t = (.done as next far, t') →
        least ≤ as.length ∧ ∀ a ∈ as, P a := by
  intro n
  induction n with
  | zero =>
    intro count acc c t as next far t' _ _ hr
    cases (Prod.mk.inj hr).1
  | succ n' ih =>
    intro count acc c t as next far t' hcount hacc hr
    -- another value is read, whether or not an end stands here
    have hmore : ∀ t₁, untilRound p stop least n' count acc c t₁ = (.done as next far, t') →
        least ≤ as.length ∧ ∀ a ∈ as, P a := by
      intro t₁ hr
      unfold untilRound at hr
      rcases hrun : p.run c t₁ with ⟨o, t₂⟩
      rw [hrun] at hr
      cases o with
      | done a c₁ far₁ =>
        refine ih _ _ _ _ _ _ _ _ ?_ ?_ hr
        · rw [List.length_cons, hcount]
        · intro b hb
          rcases List.mem_cons.1 hb with rfl | hb
          · exact hp _ _ _ _ _ _ hrun
          · exact hacc b hb
      | failed far₁ => cases (Prod.mk.inj hr).1
      | rejected recipe => cases (Prod.mk.inj hr).1
    rw [untilLoop_succ] at hr
    rcases hs : stop.run c t with ⟨o, t₁⟩
    rw [hs] at hr
    cases o with
    | done b n far₁ =>
      simp only at hr
      split at hr
      · rename_i hleast
        obtain ⟨ho, -⟩ := Prod.mk.inj hr
        cases ho
        refine ⟨?_, fun a ha => hacc a (List.mem_reverse.1 ha)⟩
        rw [List.length_reverse]
        omega
      · exact hmore t₁ hr
    | failed far₁ => exact hmore t₁ hr
    | rejected recipe => cases (Prod.mk.inj hr).1

theorem untilEnd {p : Parser ω α} (hp : Yields p P) (stop : Parser ω β) (least : Nat) :
    Yields (Parser.untilEnd p stop least) fun as => least ≤ as.length ∧ ∀ a ∈ as, P a := by
  intro c t as next far t' hr
  exact hp.untilLoop _ _ _ _ _ _ _ _ _ rfl (fun a ha => absurd ha List.not_mem_nil) hr

theorem sepBy {p : Parser ω α} (hp : Yields p P) (sep : Parser ω β) :
    Yields (sepBy p sep) fun as => ∀ a ∈ as, P a :=
  orElse
    (hp.bind fun _ ha => (many (after sep fun _ => hp)).bind fun _ has =>
      pure (List.forall_mem_cons.2 ⟨ha, has⟩))
    (pure fun _ ha => absurd ha List.not_mem_nil)

theorem spread {p : Parser ω α} (hp : Yields p P) : Yields (spread p) P :=
  after _ fun _ => hp.bind fun _ ha => after _ fun _ => pure ha

theorem spaced {p : Parser ω α} (hp : Yields p P) : Yields (spaced p) P :=
  after _ fun _ => hp.bind fun _ ha => after _ fun _ => pure ha

end Yields

/-- A parser that gives a value or ends the parse. -/
def NeverFails (p : Parser ω α) : Prop :=
  ∀ c t far t', p.run c t ≠ (.failed far, t')

namespace NeverFails

theorem pure (a : α) : NeverFails (Pure.pure a : Parser ω α) := by
  intro c t far t' hr
  cases (Prod.mk.inj hr).1

theorem bind {p : Parser ω α} {f : α → Parser ω β} (hp : NeverFails p) (hf : ∀ a, NeverFails (f a)) :
    NeverFails (p >>= f) := by
  intro c t far t' hr
  rcases bind_eq_failed hr with h | ⟨a, n, far₁, t₁, far₂, -, h⟩
  · exact hp _ _ _ _ h
  · exact hf a _ _ _ _ h

theorem map {p : Parser ω α} (hp : NeverFails p) (f : α → β) : NeverFails (f <$> p) :=
  hp.bind fun a => pure (f a)

/-- The last alternative decides. -/
theorem orElse {q : Parser ω α} (hq : NeverFails q) (p : Parser ω α) : NeverFails (p <|> q) := by
  intro c t far t' hr
  obtain ⟨far₁, t₁, far₂, -, h⟩ := orElse_eq_failed hr
  exact hq _ _ _ _ h

theorem optional (p : Parser ω α) : NeverFails (Parser.optional p) := by
  intro c t far t' hr
  simp only [Parser.optional] at hr
  split at hr <;> cases (Prod.mk.inj hr).1

theorem many (p : Parser ω α) : NeverFails (Parser.many p) := by
  have hloop : ∀ n acc far₀ c t far t', Parser.manyLoop p n acc far₀ c t ≠ (.failed far, t') := by
    intro n
    induction n with
    | zero => intro acc far₀ c t far t' hr; cases (Prod.mk.inj hr).1
    | succ n ih =>
      intro acc far₀ c t far t' hr
      rw [Parser.manyLoop] at hr
      split at hr
      · exact ih _ _ _ _ _ _ hr
      · cases (Prod.mk.inj hr).1
      · cases (Prod.mk.inj hr).1
  exact fun c t far t' => hloop _ _ _ c t far t'

theorem sepBy (p : Parser ω α) (sep : Parser ω β) : NeverFails (Parser.sepBy p sep) :=
  orElse (pure []) _

theorem tracedBy [Listener ω] {rule : String} {data : α → Datum} {p : Parser ω α} (hp : NeverFails p) :
    NeverFails (Parser.tracedBy rule data p) := by
  intro c t far t' hr
  simp only [Parser.tracedBy] at hr
  split at hr
  · cases (Prod.mk.inj hr).1
  · exact hp _ _ _ _ hr

theorem spread {p : Parser ω α} (hp : NeverFails p) : NeverFails (Parsing.spread p) :=
  (optional _).bind fun _ => hp.bind fun _ => (optional _).bind fun _ => pure _

end NeverFails

/-- A parser that never fails is not left out. -/
theorem Yields.optional_some {p : Parser ω α} (hp : Yields p P) (hn : NeverFails p) :
    Yields (Parser.optional p) fun o => ∃ a, o = some a ∧ P a := by
  intro c t o next far t' hr
  rcases optional_eq_done hr with ⟨a, rfl, h⟩ | ⟨-, -, h⟩
  · exact ⟨a, rfl, hp _ _ _ _ _ _ h⟩
  · exact absurd h (hn _ _ _ _)

end Justfile.Parsing
