import Justfile.Proofs.Yields

/-!
# Parsers that go forward

A parser that succeeds leaves a later place of the same text. Two parsers that differ in parts far
behind still do the same on short texts. Both facts pass through a grammar in the same way, so they
are one relation.

* `Ahead k c next`: the place `next` is at least `k` characters after `c`.
* `Alike F n k p q`: on fewer than `n` characters `p` and `q` do the same, go on by at least `k`
  characters if they succeed, and end the parse only at a place where `F` holds. There is a rule for each
  combinator; `Alike.later` is the one where the bound drops.
* `manyLoop_stable`, `untilLoop_stable`: a repetition of a parser that goes on does not depend on
  how many rounds it is allowed.
-/

namespace Justfile.Parsing

open Justfile.Parsing.Parser

variable {ω α β : Type}

/-- Parsers are the same if they do the same. -/
theorem Parser.eq_of_run {p q : Parser ω α} (h : ∀ c t, p.run c t = q.run c t) : p = q :=
  congrArg Parser.mk (funext fun c => funext fun t => h c t)

theorem Outcome.join_join (far far' : Nat) (o : Outcome α) :
    (o.join far').join far = o.join (max far far') := by
  cases o with
  | done a next far'' => simp only [Outcome.join, Nat.max_assoc]
  | failed far'' => simp only [Outcome.join, Nat.max_assoc]
  | rejected recipe => rfl

theorem Outcome.join_zero (o : Outcome α) : o.join 0 = o := by
  cases o with
  | done a next far => simp only [Outcome.join, Nat.zero_max]
  | failed far => simp only [Outcome.join, Nat.zero_max]
  | rejected recipe => rfl

instance : LawfulMonad (Parser ω) := by
  -- furthest failures are joined by `max`, which is associative and has zero as its unit
  refine LawfulMonad.mk' _ (fun p => ?_) (fun a f => ?_) fun p f g => ?_
  · refine Parser.eq_of_run fun c t => ?_
    show (p >>= fun a => Pure.pure a).run c t = p.run c t
    rw [run_bind]
    rcases p.run c t with ⟨o, t₁⟩
    cases o with
    | done a next far => exact Prod.ext (congrArg (Outcome.done a next) (Nat.max_zero far)) rfl
    | failed far => rfl
    | rejected recipe => rfl
  · refine Parser.eq_of_run fun c t => ?_
    exact Prod.ext (Outcome.join_zero _) rfl
  · refine Parser.eq_of_run fun c t => ?_
    rw [run_bind, run_bind, run_bind]
    rcases hrun : p.run c t with ⟨o, t₁⟩
    cases o with
    | done a next far =>
      simp only
      rw [run_bind]
      rcases (f a).run next t₁ with ⟨o', t₂⟩
      cases o' with
      | done b next' far' => exact Prod.ext (Outcome.join_join far far' _).symm rfl
      | failed far' => rfl
      | rejected recipe => rfl
    | failed far => rfl
    | rejected recipe => rfl

/-- A place of the same text, at least `k` characters further on. -/
structure Ahead (k : Nat) (c next : Cursor) : Prop where
  suffix : next.rest <:+ c.rest
  same : next.pos + next.rest.length = c.pos + c.rest.length
  apart : next.rest.length + k ≤ c.rest.length

theorem Ahead.refl (c : Cursor) : Ahead 0 c c := ⟨List.suffix_rfl, rfl, Nat.le_refl _⟩

theorem Ahead.trans {k l : Nat} {c c₁ c₂ : Cursor} (h : Ahead k c c₁) (h' : Ahead l c₁ c₂) :
    Ahead (k + l) c c₂ := by
  have hsame := h.same
  have hsame' := h'.same
  have hapart := h.apart
  have hapart' := h'.apart
  exact ⟨h'.suffix.trans h.suffix, by omega, by omega⟩

theorem Ahead.mono {k l : Nat} {c next : Cursor} (h : Ahead k c next) (hl : l ≤ k) : Ahead l c next := by
  have hapart := h.apart
  exact ⟨h.suffix, h.same, by omega⟩

/-- The place after what is read. -/
theorem Ahead.of_append {c : Cursor} {cs rest : List Char} (h : c.rest = cs ++ rest) :
    Ahead cs.length c ⟨rest, c.pos + cs.length⟩ := by
  have hlen := congrArg List.length h
  rw [List.length_append] at hlen
  exact ⟨⟨cs, h.symm⟩, by simp only; omega, by simp only; omega⟩

/-- Whenever the parser succeeds it has read at least `k` characters. -/
def Advances (k : Nat) (p : Parser ω α) : Prop :=
  ∀ c t a next far t', p.run c t = (.done a next far, t') → Ahead k c next

/-- An outcome at the place `c`: a success at least `k` characters further on, a failure, or the end of
the parse for a recipe that is refused there or further on. -/
def Outcome.Proceeds (F : Cursor → String → Prop) (k : Nat) (c : Cursor) : Outcome α → Prop
  | .done _ next _ => Ahead k c next
  | .failed _ => True
  | .rejected recipe => ∃ place, Ahead 0 c place ∧ F place recipe

variable {F : Cursor → String → Prop}

theorem Outcome.Proceeds.join {k far : Nat} {c : Cursor} {o : Outcome α} (h : o.Proceeds F k c) :
    (o.join far).Proceeds F k c := by
  cases o with
  | done a next far' => exact h
  | failed far' => exact True.intro
  | rejected recipe => exact h

theorem Outcome.Proceeds.mono {k l : Nat} {c : Cursor} {o : Outcome α} (h : o.Proceeds F k c) (hl : l ≤ k) :
    o.Proceeds F l c := by
  cases o with
  | done a next far => exact Ahead.mono h hl
  | failed far => exact True.intro
  | rejected recipe => exact h

/-- What follows a success is further on from where that began. -/
theorem Outcome.Proceeds.after {k l : Nat} {c next : Cursor} {o : Outcome α} (h : Ahead k c next)
    (ho : o.Proceeds F l next) : o.Proceeds F (k + l) c := by
  cases o with
  | done a next' far => exact h.trans ho
  | failed far => exact True.intro
  | rejected recipe =>
    obtain ⟨place, hplace, hrefused⟩ := ho
    exact ⟨place, (h.trans hplace).mono (Nat.zero_le _), hrefused⟩

/-- A refusal counts from any place before it. -/
theorem Outcome.Proceeds.refused {j k l : Nat} {start c : Cursor} {recipe : String} (hstart : Ahead j start c)
    (h : (Outcome.rejected recipe : Outcome α).Proceeds F k c) :
    (Outcome.rejected recipe : Outcome β).Proceeds F l start := by
  obtain ⟨place, hplace, hrefused⟩ := h
  exact ⟨place, (hstart.trans hplace).mono (Nat.zero_le _), hrefused⟩

/-- On fewer than `n` characters both parsers do the same, and proceed by at least `k` characters. -/
def Alike (F : Cursor → String → Prop) (n k : Nat) (p q : Parser ω α) : Prop :=
  ∀ c t, c.rest.length < n → p.run c t = q.run c t ∧ (p.run c t).1.Proceeds F k c

namespace Alike

variable {n m k l : Nat} {p q : Parser ω α} {f g : α → Parser ω β}

/-- A parser is like itself if it goes on. -/
theorem self (h : ∀ c t, (p.run c t).1.Proceeds F k c) : Alike F n k p p :=
  fun c t _ => ⟨rfl, h c t⟩

theorem mono (h : Alike F n k p q) (hl : l ≤ k) : Alike F n l p q := by
  intro c t hc
  obtain ⟨heq, hgo⟩ := h c t hc
  exact ⟨heq, hgo.mono hl⟩

/-- Where it does not matter how far a parser goes on. -/
theorem weaken (h : Alike F n k p q) : Alike F n 0 p q := h.mono (Nat.zero_le k)

/-- Where two parsers are alike, they are so on shorter texts. -/
theorem shorten (h : Alike F n k p q) (hm : m ≤ n) : Alike F m k p q :=
  fun c t hc => h c t (by omega)

theorem pure (a : α) : Alike F n 0 (Pure.pure a : Parser ω α) (Pure.pure a) :=
  self fun c _ => Ahead.refl c

theorem symm (h : Alike F n k p q) : Alike F n k q p := by
  intro c t hc
  obtain ⟨heq, hgo⟩ := h c t hc
  rw [heq] at hgo
  exact ⟨heq.symm, hgo⟩

theorem trans {r : Parser ω α} (h : Alike F n k p q) (h' : Alike F n k q r) : Alike F n k p r := by
  intro c t hc
  obtain ⟨heq, hgo⟩ := h c t hc
  exact ⟨heq.trans (h' c t hc).1, hgo⟩

/-- **One parser after the other**: the second starts at least `k` characters later, so it is enough that
the second parts are alike on texts that much shorter. -/
theorem chain (hp : Alike F m k p q) (hf : ∀ a, Alike F n l (f a) (g a)) (hm : m ≤ n + k) :
    Alike F m (k + l) (p >>= f) (q >>= g) := by
  intro c t hc
  obtain ⟨heq, hgo⟩ := hp c t hc
  rw [run_bind, run_bind, ← heq]
  rcases hrun : p.run c t with ⟨o, t₁⟩
  rw [hrun] at hgo
  cases o with
  | done a next far =>
    -- the first part has read at least `k` characters
    have hnext : next.rest.length < n := by
      have hapart := Ahead.apart hgo
      omega
    obtain ⟨heq', hgo'⟩ := hf a next t₁ hnext
    simp only
    rw [← heq']
    exact ⟨rfl, (Outcome.Proceeds.after hgo hgo').join⟩
  | failed far => exact ⟨rfl, True.intro⟩
  | rejected recipe => exact ⟨rfl, hgo⟩

/-- The first part goes on. -/
theorem bind (hp : Alike F n k p q) (hf : ∀ a, Alike F n 0 (f a) (g a)) : Alike F n k (p >>= f) (q >>= g) :=
  hp.chain hf (by omega)

/-- The second part goes on. -/
theorem skip (hp : Alike F n 0 p q) (hf : ∀ a, Alike F n k (f a) (g a)) : Alike F n k (p >>= f) (q >>= g) := by
  have h := hp.chain hf (by omega)
  rwa [Nat.zero_add] at h

/-- The first part goes on, so the second need only be alike on shorter texts. -/
theorem later (hp : Alike F (n + 1) 1 p q) (hf : ∀ a, Alike F n 0 (f a) (g a)) :
    Alike F (n + 1) 1 (p >>= f) (q >>= g) :=
  hp.chain hf (by omega)

theorem map (hp : Alike F n k p q) (f : α → β) : Alike F n k (f <$> p) (f <$> q) :=
  hp.bind fun a => pure (f a)

theorem orElse {p' q' : Parser ω α} (hp : Alike F n k p q) (hp' : Alike F n k p' q') :
    Alike F n k (p <|> p') (q <|> q') := by
  intro c t hc
  obtain ⟨heq, hgo⟩ := hp c t hc
  rw [run_orElse, run_orElse, ← heq]
  rcases hrun : p.run c t with ⟨o, t₁⟩
  rw [hrun] at hgo
  cases o with
  | done a next far => exact ⟨rfl, hgo⟩
  | failed far =>
    obtain ⟨heq', hgo'⟩ := hp' c t₁ hc
    simp only
    rw [← heq']
    exact ⟨rfl, hgo'.join⟩
  | rejected recipe => exact ⟨rfl, hgo⟩

theorem optional (hp : Alike F n k p q) : Alike F n 0 (Parser.optional p) (Parser.optional q) := by
  intro c t hc
  obtain ⟨heq, hgo⟩ := hp c t hc
  simp only [Parser.optional]
  rw [← heq]
  rcases hrun : p.run c t with ⟨o, t₁⟩
  rw [hrun] at hgo
  cases o with
  | done a next far => exact ⟨rfl, Ahead.mono hgo (Nat.zero_le k)⟩
  | failed far => exact ⟨rfl, Ahead.refl c⟩
  | rejected recipe => exact ⟨rfl, hgo⟩

theorem peek (hp : Alike F n k p q) : Alike F n 0 (Parser.peek p) (Parser.peek q) := by
  intro c t hc
  obtain ⟨heq, hgo⟩ := hp c t hc
  simp only [Parser.peek]
  rw [← heq]
  rcases hrun : p.run c t with ⟨o, t₁⟩
  rw [hrun] at hgo
  cases o with
  | done a next far => exact ⟨rfl, Ahead.refl c⟩
  | failed far => exact ⟨rfl, True.intro⟩
  | rejected recipe => exact ⟨rfl, hgo⟩

theorem absent (hp : Alike F n k p q) : Alike F n 0 (Parser.absent p) (Parser.absent q) := by
  intro c t hc
  obtain ⟨heq, hgo⟩ := hp c t hc
  simp only [Parser.absent]
  rw [← heq]
  rcases hrun : p.run c t with ⟨o, t₁⟩
  rw [hrun] at hgo
  cases o with
  | done a next far => exact ⟨rfl, True.intro⟩
  | failed far => exact ⟨rfl, Ahead.refl c⟩
  | rejected recipe => exact ⟨rfl, hgo⟩

theorem tracedBy [Listener ω] {rule : String} {data : α → Datum} (hp : Alike F n k p q) :
    Alike F n k (Parser.tracedBy rule data p) (Parser.tracedBy rule data q) := by
  intro c t hc
  obtain ⟨heq, hgo⟩ := hp c t hc
  simp only [Parser.tracedBy]
  rw [← heq]
  rcases hrun : p.run c t with ⟨o, t₁⟩
  rw [hrun] at hgo
  cases o with
  | done a next far => exact ⟨rfl, hgo⟩
  | failed far => exact ⟨rfl, True.intro⟩
  | rejected recipe => exact ⟨rfl, hgo⟩

theorem traced [Listener ω] [ToDatum α] {rule : String} (hp : Alike F n k p q) :
    Alike F n k (Parser.traced rule p) (Parser.traced rule q) :=
  hp.tracedBy

/-- A repetition goes on from where it is; `start` is where it began. -/
theorem manyLoop (hp : Alike F n k p q) : ∀ rounds acc far start c t, Ahead 0 start c → c.rest.length < n →
    Parser.manyLoop p rounds acc far c t = Parser.manyLoop q rounds acc far c t ∧
      (Parser.manyLoop p rounds acc far c t).1.Proceeds F 0 start := by
  intro rounds
  induction rounds with
  | zero =>
    intro acc far start c t hstart _
    exact ⟨rfl, hstart⟩
  | succ rounds ih =>
    intro acc far start c t hstart hc
    obtain ⟨heq, hgo⟩ := hp c t hc
    rw [Parser.manyLoop, Parser.manyLoop, ← heq]
    rcases hrun : p.run c t with ⟨o, t₁⟩
    rw [hrun] at hgo
    cases o with
    | done a next far' =>
      have hnext : Ahead 0 start next := hstart.trans (Ahead.mono hgo (Nat.zero_le k))
      have hlen : next.rest.length < n := by
        have hapart := Ahead.apart hgo
        omega
      exact ih _ _ _ _ _ hnext hlen
    | failed far' => exact ⟨rfl, hstart⟩
    | rejected recipe => exact ⟨rfl, Outcome.Proceeds.refused hstart hgo⟩

theorem many (hp : Alike F n k p q) : Alike F n 0 (Parser.many p) (Parser.many q) :=
  fun c t hc => hp.manyLoop _ _ _ c c t (Ahead.refl c) hc

theorem many1 (hp : Alike F n k p q) : Alike F n k (Parser.many1 p) (Parser.many1 q) :=
  hp.bind fun _ => hp.many.bind fun _ => pure _

theorem sepBy {s r : Parser ω β} (hp : Alike F n k p q) (hs : Alike F n l s r) :
    Alike F n 0 (Parser.sepBy p s) (Parser.sepBy q r) := by
  have hp' := hp.weaken
  have hs' := hs.weaken
  have hmore := (hs'.bind fun _ => hp').many
  exact orElse (hp'.bind fun _ => hmore.bind fun _ => pure _) (pure [])

/-- A repetition up to an end has read one character for each value it gives, and gives no fewer than
asked for. `count` values are read since `start`. -/
theorem untilLoop {s r : Parser ω β} (hp : Alike F n 1 p q) (hs : Alike F n l s r) (least : Nat) :
    ∀ rounds count acc start c t, Ahead count start c → c.rest.length < n →
      Parser.untilLoop p s least rounds count acc c t = Parser.untilLoop q r least rounds count acc c t ∧
        (Parser.untilLoop p s least rounds count acc c t).1.Proceeds F least start := by
  intro rounds
  induction rounds with
  | zero =>
    intro count acc start c t _ _
    exact ⟨rfl, True.intro⟩
  | succ rounds ih =>
    intro count acc start c t hstart hc
    -- another value is one more character read since `start`
    have hround : ∀ t₁, untilRound p s least rounds count acc c t₁ =
        untilRound q r least rounds count acc c t₁ ∧
          (untilRound p s least rounds count acc c t₁).1.Proceeds F least start := by
      intro t₁
      obtain ⟨heq, hgo⟩ := hp c t₁ hc
      unfold untilRound
      rw [← heq]
      rcases hrun : p.run c t₁ with ⟨o, t₂⟩
      rw [hrun] at hgo
      cases o with
      | done a next far =>
        have hlen : next.rest.length < n := by
          have hapart := Ahead.apart hgo
          omega
        exact ih _ _ _ _ _ (hstart.trans hgo) hlen
      | failed far => exact ⟨rfl, True.intro⟩
      | rejected recipe => exact ⟨rfl, Outcome.Proceeds.refused hstart hgo⟩
    obtain ⟨heq, hgo⟩ := hs c t hc
    rw [untilLoop_succ, untilLoop_succ, ← heq]
    rcases hrun : s.run c t with ⟨o, t₁⟩
    rw [hrun] at hgo
    cases o with
    | done b next far =>
      simp only
      split
      · rename_i hleast
        exact ⟨rfl, hstart.mono hleast⟩
      · exact hround t₁
    | failed far => exact hround t₁
    | rejected recipe => exact ⟨rfl, Outcome.Proceeds.refused hstart hgo⟩

theorem untilEnd {s r : Parser ω β} (hp : Alike F n 1 p q) (hs : Alike F n l s r) (least : Nat) :
    Alike F n least (Parser.untilEnd p s least) (Parser.untilEnd q r least) :=
  fun c t hc => hp.untilLoop hs least _ _ _ c c t (Ahead.refl c) hc

end Alike

/-- A parser that is like another on texts of any length advances. -/
theorem Advances.of_alike {k : Nat} {p q : Parser ω α} (h : ∀ n, Alike F n k p q) : Advances k p := by
  intro c t a next far t' hrun
  have hgo := (h (c.rest.length + 1) c t (Nat.lt_succ_self _)).2
  rw [hrun] at hgo
  exact hgo

theorem append_of_after? {s cs rest : List Char} (h : after? s cs = some rest) : cs = s ++ rest := by
  fun_induction after? s cs with
  | case1 cs =>
    cases h
    rfl
  | case2 s c cs ih => rw [ih h, List.cons_append]
  | case3 => cases h
  | case4 => cases h

namespace Alike

variable {n : Nat}

/-- A word is read as a whole. -/
theorem wordLength (s : String) : Alike F n s.toList.length (word s : Parser ω String) (word s) := by
  have hchars : Alike F n s.toList.length (chars s.toList : Parser ω (List Char)) (chars s.toList) := by
    refine self fun c t => ?_
    simp only [chars]
    cases h : after? s.toList c.rest with
    | none => exact True.intro
    | some rest => exact Ahead.of_append (append_of_after? h)
  exact hchars.map _

/-- A word that is not empty takes a character. -/
theorem word {s : String} (h : s.toList ≠ []) : Alike F n 1 (word s : Parser ω String) (Parser.word s) :=
  (wordLength s).mono (List.length_pos_iff.2 h)

theorem satisfy (ok : Char → Bool) : Alike F n 1 (satisfy ok : Parser ω Char) (Parser.satisfy ok) := by
  refine self fun c t => ?_
  simp only [Parser.satisfy]
  cases hrest : c.rest with
  | nil => exact True.intro
  | cons x rest =>
    simp only
    split
    · have hread : c.rest = [x] ++ rest := hrest
      exact Ahead.of_append hread
    · exact True.intro

theorem span (first others : Char → Bool) :
    Alike F n 1 (span first others : Parser ω (List Char)) (Parser.span first others) := by
  refine self fun c t => ?_
  simp only [Parser.span]
  cases hrest : c.rest with
  | nil => exact True.intro
  | cons x rest =>
    simp only
    split
    · have hread : c.rest = (x :: rest.takeWhile others) ++ rest.dropWhile others := by
        rw [hrest, List.cons_append, List.takeWhile_append_dropWhile]
      have hahead := Ahead.of_append hread
      rw [List.length_cons, Nat.add_comm _ 1, ← Nat.add_assoc] at hahead
      exact hahead.mono (Nat.le_add_right 1 _)
    · exact True.intro

theorem eof : Alike F n 0 (eof : Parser ω Unit) Parser.eof := by
  refine self fun c t => ?_
  simp only [Parser.eof]
  cases hrest : c.rest with
  | nil => exact Ahead.refl c
  | cons x rest => exact True.intro

variable {k : Nat} {p q : Parser ω α}

theorem spread (hp : Alike F n k p q) : Alike F n k (spread p) (spread q) :=
  (span _ _).optional.skip fun _ => hp.bind fun _ => (span _ _).optional.bind fun _ => pure _

theorem spaced (hp : Alike F n k p q) : Alike F n k (spaced p) (spaced q) :=
  (span _ _).optional.skip fun _ => hp.bind fun _ => (span _ _).optional.bind fun _ => pure _

end Alike

section Rounds

variable {p : Parser ω α} (hp : Advances 1 p)

include hp

/-- **Allowed rounds do not count**: a repetition of a parser that goes on ends by itself, as long as it is
allowed more rounds than there are characters. -/
theorem manyLoop_stable : ∀ n m acc far c t, c.rest.length < n → c.rest.length < m →
    manyLoop p n acc far c t = manyLoop p m acc far c t := by
  intro n
  induction n with
  | zero => intro m acc far c t hn _; omega
  | succ n ih =>
    intro m acc far c t hn hm
    cases m with
    | zero => omega
    | succ m =>
      rw [manyLoop, manyLoop]
      rcases hrun : p.run c t with ⟨o, t₁⟩
      cases o with
      | done a next far' =>
        -- a character is read, so both bounds still exceed what is left
        have hapart := (hp c t a next far' t₁ hrun).apart
        exact ih m _ _ _ _ (by omega) (by omega)
      | failed far' => rfl
      | rejected recipe => rfl

theorem untilLoop_stable (stop : Parser ω β) (least : Nat) : ∀ n m count acc c t, c.rest.length < n →
    c.rest.length < m → untilLoop p stop least n count acc c t = untilLoop p stop least m count acc c t := by
  intro n
  induction n with
  | zero => intro m count acc c t hn _; omega
  | succ n ih =>
    intro m count acc c t hn hm
    cases m with
    | zero => omega
    | succ m =>
      have hround : ∀ t₁, untilRound p stop least n count acc c t₁ =
          untilRound p stop least m count acc c t₁ := by
        intro t₁
        unfold untilRound
        rcases hrun : p.run c t₁ with ⟨o, t₂⟩
        cases o with
        | done a next far' =>
          have hapart := (hp c t₁ a next far' t₂ hrun).apart
          exact ih m _ _ _ _ (by omega) (by omega)
        | failed far' => rfl
        | rejected recipe => rfl
      rw [untilLoop_succ, untilLoop_succ]
      rcases stop.run c t with ⟨o, t₁⟩
      cases o with
      | done b next far =>
        simp only
        rw [hround t₁]
      | failed far => exact hround t₁
      | rejected recipe => rfl

end Rounds

end Justfile.Parsing
