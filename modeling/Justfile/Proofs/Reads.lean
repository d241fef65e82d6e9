import Justfile.Proofs.Yields

/-!
# What parsers read and refuse

* `Reads p cs a rest`: from the text `cs` the parser reads `a` and leaves `rest`.
* `Refuses p cs`: on the text `cs` the parser fails, so that an alternative is tried.

Both hold whatever the place in the text and whoever listens. There is one rule for each combinator
and one for each of the two outcomes; `Repeats` and `Gathers` are the runs of the two loops.
-/

namespace Justfile.Parsing

open Justfile.Parsing.Parser

variable {ω α β : Type}

/-- From the text `cs` the parser reads `a` and leaves `rest`. -/
def Reads (p : Parser ω α) (cs : List Char) (a : α) (rest : List Char) : Prop :=
  ∀ pos t, ∃ next far t', p.run ⟨cs, pos⟩ t = (.done a ⟨rest, next⟩ far, t')

/-- On the text `cs` the parser fails. -/
def Refuses (p : Parser ω α) (cs : List Char) : Prop :=
  ∀ pos t, ∃ far t', p.run ⟨cs, pos⟩ t = (.failed far, t')

variable {p q : Parser ω α} {f : α → Parser ω β} {a : α} {b : β} {cs mid rest : List Char}

theorem Reads.pure (a : α) (cs : List Char) : Reads (Pure.pure a : Parser ω α) cs a cs :=
  fun pos t => ⟨pos, 0, t, rfl⟩

theorem Reads.bind (hp : Reads p cs a mid) (hf : Reads (f a) mid b rest) :
    Reads (p >>= f) cs b rest := by
  intro pos t
  obtain ⟨next, far, t', h⟩ := hp pos t
  obtain ⟨next', far', t'', h'⟩ := hf next t'
  refine ⟨next', max far far', t'', ?_⟩
  rw [run_bind, h]
  simp only [h']
  rfl

theorem Refuses.bind (hp : Refuses p cs) : Refuses (p >>= f) cs := by
  intro pos t
  obtain ⟨far, t', h⟩ := hp pos t
  refine ⟨far, t', ?_⟩
  rw [run_bind, h]

/-- The first part reads, the second fails on what is left. -/
theorem Refuses.bind_right (hp : Reads p cs a mid) (hf : Refuses (f a) mid) :
    Refuses (p >>= f) cs := by
  intro pos t
  obtain ⟨next, far, t', h⟩ := hp pos t
  obtain ⟨far', t'', h'⟩ := hf next t'
  refine ⟨max far far', t'', ?_⟩
  rw [run_bind, h]
  simp only [h']
  rfl

theorem Reads.map (g : α → β) (hp : Reads p cs a rest) : Reads (g <$> p) cs (g a) rest :=
  hp.bind (.pure (g a) rest)

theorem Refuses.map (g : α → β) (hp : Refuses p cs) : Refuses (g <$> p) cs :=
  hp.bind

theorem Reads.orElse_left (hp : Reads p cs a rest) : Reads (p <|> q) cs a rest := by
  intro pos t
  obtain ⟨next, far, t', h⟩ := hp pos t
  refine ⟨next, far, t', ?_⟩
  rw [run_orElse, h]

theorem Reads.orElse_right (hp : Refuses p cs) (hq : Reads q cs a rest) :
    Reads (p <|> q) cs a rest := by
  intro pos t
  obtain ⟨far, t', h⟩ := hp pos t
  obtain ⟨next, far', t'', h'⟩ := hq pos t'
  refine ⟨next, max far far', t'', ?_⟩
  rw [run_orElse, h]
  simp only [h']
  rfl

theorem Refuses.orElse (hp : Refuses p cs) (hq : Refuses q cs) : Refuses (p <|> q) cs := by
  intro pos t
  obtain ⟨far, t', h⟩ := hp pos t
  obtain ⟨far', t'', h'⟩ := hq pos t'
  refine ⟨max far far', t'', ?_⟩
  rw [run_orElse, h]
  simp only [h']
  rfl

theorem Reads.optional (hp : Reads p cs a rest) : Reads (optional p) cs (some a) rest := by
  intro pos t
  obtain ⟨next, far, t', h⟩ := hp pos t
  refine ⟨next, far, t', ?_⟩
  simp only [Parser.optional, h]

theorem Refuses.optional (hp : Refuses p cs) : Reads (optional p) cs none cs := by
  intro pos t
  obtain ⟨far, t', h⟩ := hp pos t
  refine ⟨pos, far, t', ?_⟩
  simp only [Parser.optional, h]

theorem Reads.peek (hp : Reads p cs a rest) : Reads (peek p) cs a cs := by
  intro pos t
  obtain ⟨next, far, t', h⟩ := hp pos t
  refine ⟨pos, 0, t', ?_⟩
  simp only [Parser.peek, h]

theorem Refuses.peek (hp : Refuses p cs) : Refuses (peek p) cs := by
  intro pos t
  obtain ⟨far, t', h⟩ := hp pos t
  refine ⟨far, t', ?_⟩
  simp only [Parser.peek, h]

theorem Reads.absent (hp : Reads p cs a rest) : Refuses (absent p) cs := by
  intro pos t
  obtain ⟨next, far, t', h⟩ := hp pos t
  refine ⟨pos, t', ?_⟩
  simp only [Parser.absent, h]

theorem Refuses.absent (hp : Refuses p cs) : Reads (absent p) cs () cs := by
  intro pos t
  obtain ⟨far, t', h⟩ := hp pos t
  refine ⟨pos, 0, t', ?_⟩
  simp only [Parser.absent, h]

theorem Reads.tracedBy [Listener ω] {rule : String} {data : α → Datum} (hp : Reads p cs a rest) :
    Reads (tracedBy rule data p) cs a rest := by
  intro pos t
  obtain ⟨next, far, t', h⟩ := hp pos t
  refine ⟨next, far, Listener.hear t' fun _ => ⟨rule, data a⟩, ?_⟩
  simp only [Parser.tracedBy, h]

theorem Refuses.tracedBy [Listener ω] {rule : String} {data : α → Datum} (hp : Refuses p cs) :
    Refuses (tracedBy rule data p) cs := by
  intro pos t
  obtain ⟨far, t', h⟩ := hp pos t
  refine ⟨far, t', ?_⟩
  simp only [Parser.tracedBy, h]

theorem Reads.traced [Listener ω] [ToDatum α] {rule : String} (hp : Reads p cs a rest) :
    Reads (traced rule p) cs a rest :=
  hp.tracedBy

theorem Refuses.traced [Listener ω] [ToDatum α] {rule : String} (hp : Refuses p cs) :
    Refuses (traced rule p) cs :=
  hp.tracedBy

theorem after?_append (s rest : List Char) : after? s (s ++ rest) = some rest := by
  induction s with
  | nil => rfl
  | cons c s ih => simp only [List.cons_append, after?, if_true, ih]

theorem after?_of_ne {c d : Char} (s rest : List Char) (h : c ≠ d) :
    after? (c :: s) (d :: rest) = none := by
  simp only [after?, h, if_false]

theorem after?_eq_none {s : List Char} (h : ¬ s <+: cs) : after? s cs = none := by
  induction s generalizing cs with
  | nil => exact absurd List.nil_prefix h
  | cons c s ih =>
    cases cs with
    | nil => rfl
    | cons d cs =>
      by_cases hcd : c = d
      · subst hcd
        simp only [after?, if_true]
        exact ih fun hs => h (List.cons_prefix_cons.2 ⟨rfl, hs⟩)
      · exact after?_of_ne s cs hcd

theorem Reads.word (s : String) (rest : List Char) :
    Reads (word s : Parser ω String) (s.toList ++ rest) s rest := by
  refine Reads.map (fun _ => s) (a := s.toList) fun pos t => ⟨pos + s.toList.length, 0, t, ?_⟩
  simp only [chars, after?_append]

theorem Refuses.word {s : String} (h : after? s.toList cs = none) :
    Refuses (word s : Parser ω String) cs := by
  refine Refuses.map _ fun pos t => ⟨pos, t, ?_⟩
  simp only [chars, h]

theorem Reads.satisfy {ok : Char → Bool} {c : Char} (h : ok c = true) (rest : List Char) :
    Reads (satisfy ok : Parser ω Char) (c :: rest) c rest := by
  intro pos t
  refine ⟨pos + 1, 0, t, ?_⟩
  simp only [Parser.satisfy, h, if_true]

/-- A text that does not start with a character of the class. -/
def Avoids (ok : Char → Bool) (cs : List Char) : Prop :=
  ∀ c ∈ cs.head?, ok c = false

theorem avoids_cons {ok : Char → Bool} {c : Char} (h : ok c = false) (cs : List Char) :
    Avoids ok (c :: cs) := by
  intro d hd
  cases hd
  exact h

theorem avoids_of_ne {c d : Char} (h : c ≠ d) (cs : List Char) : Avoids (· == d) (c :: cs) := by
  refine avoids_cons ?_ cs
  exact beq_false_of_ne h

theorem avoids_nil (ok : Char → Bool) : Avoids ok [] := by
  intro c hc
  cases hc

theorem Avoids.mono {ok ok' : Char → Bool} (h : Avoids ok cs) (hok : ∀ c, ok c = false → ok' c = false) :
    Avoids ok' cs :=
  fun c hc => hok c (h c hc)

theorem Avoids.dropWhile {ok : Char → Bool} (h : Avoids ok cs) : cs.dropWhile ok = cs := by
  cases cs with
  | nil => rfl
  | cons c cs => exact List.dropWhile_cons_of_neg (by simp [h c rfl])

theorem Avoids.takeWhile {ok : Char → Bool} (h : Avoids ok cs) : cs.takeWhile ok = [] := by
  cases cs with
  | nil => rfl
  | cons c cs => exact List.takeWhile_cons_of_neg (by simp [h c rfl])

theorem avoids_dropWhile (ok : Char → Bool) (cs : List Char) : Avoids ok (cs.dropWhile ok) := by
  intro c hc
  have := List.head?_dropWhile_not ok cs
  rw [hc] at this
  simpa using this

/-- A word is refused where its first character does not stand. -/
theorem word_refuses_of_avoids {d : Char} (s : String) (hs : s.toList.head? = some d)
    (h : Avoids (· == d) cs) : Refuses (word s : Parser ω String) cs := by
  refine .word ?_
  cases hl : s.toList with
  | nil => rw [hl] at hs; cases hs
  | cons d' ds =>
    rw [hl] at hs
    cases hs
    cases cs with
    | nil => rfl
    | cons c cs => exact after?_of_ne ds cs fun hdc => by simpa [hdc] using h c rfl

theorem word_refuses {c d : Char} (s : String) (hs : s.toList.head? = some d) (h : d ≠ c) :
    Refuses (word s : Parser ω String) (c :: cs) := by
  exact word_refuses_of_avoids s hs (avoids_of_ne h.symm cs)

theorem Reads.span {first others : Char → Bool} {c : Char} {xs : List Char} (hc : first c = true)
    (hxs : xs.all others = true) (hrest : Avoids others rest) :
    Reads (span first others : Parser ω (List Char)) (c :: (xs ++ rest)) (c :: xs) rest := by
  intro pos t
  have hxs' := List.all_eq_true.1 hxs
  refine ⟨pos + 1 + xs.length, 0, t, ?_⟩
  simp only [Parser.span, hc, if_true, List.takeWhile_append_of_pos hxs', hrest.takeWhile,
    List.dropWhile_append_of_pos hxs', hrest.dropWhile, List.append_nil]

theorem Refuses.span {first others : Char → Bool} (h : Avoids first cs) :
    Refuses (span first others : Parser ω (List Char)) cs := by
  intro pos t
  refine ⟨pos, t, ?_⟩
  cases cs with
  | nil => rfl
  | cons c cs => simp [Parser.span, h c rfl]

/-- Leading characters of a class are skipped, if there are any. -/
theorem skips (ok : Char → Bool) (cs : List Char) :
    ∃ o, Reads (optional (span ok ok) : Parser ω (Option (List Char))) cs o (cs.dropWhile ok) := by
  by_cases h : Avoids ok cs
  · rw [h.dropWhile]
    exact ⟨none, (Refuses.span h).optional⟩
  · cases cs with
    | nil => exact absurd (fun c hc => by cases hc) h
    | cons c cs =>
      have hc : ok c = true := by
        by_contra hc
        refine h fun d hd => ?_
        cases hd
        simpa using hc
      have hall : (cs.takeWhile ok).all ok = true :=
        List.all_eq_true.2 fun d hd => List.mem_takeWhile_imp hd
      have hr : Reads (span ok ok : Parser ω (List Char))
          (c :: (cs.takeWhile ok ++ cs.dropWhile ok)) _ _ :=
        .span hc hall (avoids_dropWhile ok cs)
      rw [List.takeWhile_append_dropWhile] at hr
      rw [List.dropWhile_cons_of_pos hc]
      exact ⟨_, hr.optional⟩

theorem Reads.spread (h : Reads p (cs.dropWhile Text.isBlank) a mid) :
    Reads (spread p) cs a (mid.dropWhile Text.isBlank) := by
  obtain ⟨o, ho⟩ := skips (ω := ω) Text.isBlank cs
  obtain ⟨o', ho'⟩ := skips (ω := ω) Text.isBlank mid
  exact ho.bind (h.bind (ho'.bind (.pure a _)))

theorem Refuses.spread (h : Refuses p (cs.dropWhile Text.isBlank)) : Refuses (spread p) cs := by
  obtain ⟨o, ho⟩ := skips (ω := ω) Text.isBlank cs
  exact .bind_right ho h.bind

/-- **After a parser with blanks around it no blank is left**, wherever it was applied. -/
theorem spread_leaves {c next : Cursor} {t t' : ω} {far : Nat}
    (h : (spread p).run c t = (.done a next far, t')) : Avoids Text.isBlank next.rest := by
  obtain ⟨_, n₁, _, t₁, _, -, h⟩ := bind_eq_done h
  obtain ⟨_, n₂, _, t₂, _, -, h⟩ := bind_eq_done h
  obtain ⟨_, n₃, _, t₃, _, hblanks, h⟩ := bind_eq_done h
  obtain ⟨hnext, -⟩ := Prod.mk.inj h
  cases hnext
  obtain ⟨o, hread⟩ := skips (ω := ω) Text.isBlank n₂.rest
  obtain ⟨pos, far', t'', hrun⟩ := hread n₂.pos t₂
  have hsame : next.rest = n₂.rest.dropWhile Text.isBlank := by
    have heq := hblanks.symm.trans hrun
    obtain ⟨ho, -⟩ := Prod.mk.inj heq
    cases ho
    rfl
  rw [hsame]
  exact avoids_dropWhile _ _

theorem Reads.spaced {start : List Char} (h : Reads p start a mid) (hcs : cs.dropWhile isSpace = start)
    (hmid : mid.dropWhile isSpace = rest) : Reads (spaced p) cs a rest := by
  obtain ⟨o, ho⟩ := skips (ω := ω) isSpace cs
  obtain ⟨o', ho'⟩ := skips (ω := ω) isSpace mid
  rw [hcs] at ho
  rw [hmid] at ho'
  exact ho.bind (h.bind (ho'.bind (.pure a _)))

theorem Refuses.spaced (h : Refuses p (cs.dropWhile isSpace)) : Refuses (spaced p) cs := by
  obtain ⟨o, ho⟩ := skips (ω := ω) isSpace cs
  exact .bind_right ho h.bind

/-- A run of `many`: the parser reads as often as it can, each time at least one character. -/
inductive Repeats (p : Parser ω α) : List Char → List α → List Char → Prop
  | stop {cs : List Char} : Refuses p cs → Repeats p cs [] cs
  | step {cs mid rest : List Char} {a : α} {as : List α} : Reads p cs a mid →
      mid.length < cs.length → Repeats p mid as rest → Repeats p cs (a :: as) rest

theorem Repeats.manyLoop {as : List α} (h : Repeats p cs as rest) :
    ∀ n acc far pos t, cs.length < n → ∃ next far' t',
      manyLoop p n acc far ⟨cs, pos⟩ t = (.done (acc.reverse ++ as) ⟨rest, next⟩ far', t') := by
  induction h with
  | stop hp =>
    intro n acc far pos t hn
    obtain ⟨n, rfl⟩ : ∃ m, n = m + 1 := ⟨n - 1, by omega⟩
    obtain ⟨far', t', h⟩ := hp pos t
    refine ⟨pos, max far far', t', ?_⟩
    simp only [Parser.manyLoop, h, List.append_nil]
  | step hp hlt _ ih =>
    intro n acc far pos t hn
    obtain ⟨n, rfl⟩ : ∃ m, n = m + 1 := ⟨n - 1, by omega⟩
    rename_i a as _
    obtain ⟨next, far', t', h⟩ := hp pos t
    obtain ⟨next', far'', t'', h'⟩ := ih n (a :: acc) (max far far') next t' (by omega)
    refine ⟨next', far'', t'', ?_⟩
    simp only [Parser.manyLoop, h, h', List.reverse_cons, List.append_assoc, List.singleton_append]

theorem Repeats.many {as : List α} (h : Repeats p cs as rest) : Reads (many p) cs as rest :=
  fun pos t => h.manyLoop (cs.length + 1) [] 0 pos t (Nat.lt_succ_self _)

theorem Repeats.many1 {as : List α} (h : Repeats p cs (a :: as) rest) :
    Reads (many1 p) cs (a :: as) rest := by
  cases h with
  | step hp _ hrest => exact hp.bind (hrest.many.bind (.pure (a :: as) rest))

/-- A run of `untilEnd`: the parser reads, each time at least one character, up to an end. -/
inductive Gathers (p : Parser ω α) (stop : Parser ω β) : List Char → List α → List Char → Prop
  | stop {cs rest : List Char} {b : β} : Reads stop cs b rest → Gathers p stop cs [] cs
  | step {cs mid rest : List Char} {a : α} {as : List α} : Refuses stop cs → Reads p cs a mid →
      mid.length < cs.length → Gathers p stop mid as rest → Gathers p stop cs (a :: as) rest

/-- Once `least` repetitions are read, the loop gathers up to the next end. -/
theorem Gathers.untilLoop {stop : Parser ω β} {as : List α} (h : Gathers p stop cs as rest)
    {least : Nat} :
    ∀ n count acc pos t, cs.length < n → least ≤ count → ∃ next t',
      untilLoop p stop least n count acc ⟨cs, pos⟩ t =
        (.done (acc.reverse ++ as) ⟨rest, next⟩ 0, t') := by
  induction h with
  | stop hs =>
    intro n count acc pos t hn hcount
    obtain ⟨n, rfl⟩ : ∃ m, n = m + 1 := ⟨n - 1, by omega⟩
    obtain ⟨next, far, t', h⟩ := hs pos t
    refine ⟨pos, t', ?_⟩
    simp [Parser.untilLoop, h, hcount]
  | step hs hp hlt _ ih =>
    intro n count acc pos t hn hcount
    obtain ⟨n, rfl⟩ : ∃ m, n = m + 1 := ⟨n - 1, by omega⟩
    rename_i a as _
    obtain ⟨far, t₁, h₁⟩ := hs pos t
    obtain ⟨next, far', t₂, h₂⟩ := hp pos t₁
    obtain ⟨next', t', h'⟩ := ih n (count + 1) (a :: acc) next t₂ (by omega) (by omega)
    refine ⟨next', t', ?_⟩
    simp [Parser.untilLoop, h₁, h₂, h']

theorem Gathers.untilEnd {stop : Parser ω β} {as : List α} (h : Gathers p stop cs as rest) :
    Reads (untilEnd p stop 0) cs as rest := by
  intro pos t
  obtain ⟨next, t', h⟩ := h.untilLoop (cs.length + 1) 0 [] pos t (Nat.lt_succ_self _) (Nat.zero_le _)
  exact ⟨next, 0, t', h⟩

/-- On the text `cs` the parser reads or fails, whatever the place and whoever listens. -/
def Decides (p : Parser ω α) (cs : List Char) : Prop :=
  (∃ a rest, Reads p cs a rest) ∨ Refuses p cs

theorem Decides.run (h : Decides p cs) (pos : Nat) (t : ω) :
    ∃ o t', p.run ⟨cs, pos⟩ t = (o, t') ∧ ∀ recipe, o ≠ .rejected recipe := by
  rcases h with ⟨a, rest, h⟩ | h
  · obtain ⟨next, far, t', h⟩ := h pos t
    exact ⟨_, t', h, fun _ hr => by cases hr⟩
  · obtain ⟨far, t', h⟩ := h pos t
    exact ⟨_, t', h, fun _ hr => by cases hr⟩

/-- With at least one repetition, the first one is read whether or not an end stands there. -/
theorem run_untilEnd_one {stop : Parser ω β} (hs : Decides stop cs) (pos : Nat) (t : ω) :
    ∃ t₁, (Parser.untilEnd p stop 1).run ⟨cs, pos⟩ t = match p.run ⟨cs, pos⟩ t₁ with
      | (.done a next _, t'') => Parser.untilLoop p stop 1 cs.length 1 [a] next t''
      | (.failed _, t'') => (.failed pos, t'')
      | (.rejected recipe, t'') => (.rejected recipe, t'') := by
  obtain ⟨o, t₁, h₁, ho⟩ := hs.run pos t
  refine ⟨t₁, ?_⟩
  cases o with
  | done b n far => simp only [Parser.untilEnd, Parser.untilLoop, h₁]; rfl
  | failed far => simp only [Parser.untilEnd, Parser.untilLoop, h₁]; rfl
  | rejected recipe => exact absurd rfl (ho recipe)

/-- A run of `untilEnd` with at least one repetition. -/
theorem Gathers.untilEnd_one {stop : Parser ω β} {as : List α} (hs : Decides stop cs)
    (hp : Reads p cs a mid) (hlt : mid.length < cs.length) (h : Gathers p stop mid as rest) :
    Reads (Parser.untilEnd p stop 1) cs (a :: as) rest := by
  intro pos t
  obtain ⟨t₁, hrun⟩ := run_untilEnd_one (p := p) hs pos t
  obtain ⟨next, far, t₂, h₂⟩ := hp pos t₁
  obtain ⟨next', t', h'⟩ := h.untilLoop cs.length 1 [a] next t₂ hlt (Nat.le_refl 1)
  exact ⟨next', 0, t', by rw [hrun, h₂]; exact h'⟩

/-- Without a first repetition there is no run of `untilEnd` with at least one. -/
theorem Refuses.untilEnd_one {stop : Parser ω β} (hs : Decides stop cs) (hp : Refuses p cs) :
    Refuses (Parser.untilEnd p stop 1) cs := by
  intro pos t
  obtain ⟨t₁, hrun⟩ := run_untilEnd_one (p := p) hs pos t
  obtain ⟨far, t', h⟩ := hp pos t₁
  exact ⟨pos, t', by rw [hrun, h]⟩

/-- Characters that come one after the other are gathered one after the other. -/
theorem Gathers.flatMap {stop : Parser ω β} {spell : α → List Char} {b : β} {after : List Char}
    (hstop : Reads stop rest b after) (as : List α)
    (h : ∀ a ∈ as, ∀ cs, Refuses stop (spell a ++ cs) ∧ Reads p (spell a ++ cs) a cs ∧
      spell a ≠ []) :
    Gathers p stop (as.flatMap spell ++ rest) as rest := by
  induction as with
  | nil => exact .stop hstop
  | cons a as ih =>
    rw [List.flatMap_cons, List.append_assoc]
    obtain ⟨hs, hp, hne⟩ := h a List.mem_cons_self (as.flatMap spell ++ rest)
    have hpos := List.length_pos_of_ne_nil hne
    refine .step hs hp ?_ (ih fun a' ha' => h a' (List.mem_cons_of_mem a ha'))
    simp only [List.length_append]
    omega

end Justfile.Parsing
