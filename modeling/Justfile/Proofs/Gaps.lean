import Justfile.Proofs.Progress
import Justfile.Proofs.Reads

/-!
# Blanks put between two lines

Blanks are put into a text after a line feed. A parser that starts before this gap may stop before it, or step
over it. What it does on the text without the blanks is compared with what it does on the text with them.

* `Gap.Twin x y`: `x` and `y` are what is left of the two texts at one place.
* `Carries g c f e p q`: what `p` does on the text without the blanks, `q` does on the text with them. With `c` this
  includes successes that step over the gap, with `f` failures before it. With `e` the values agree, unless the gap
  was stepped over. There is a rule for each combinator.
* `Decided g e p q`: only whether `p` succeeds carries over to `q`.
-/

namespace Justfile.Parsing

open Justfile.Parsing.Parser

variable {ω α β : Type}

section Inversion

variable {p : Parser ω α} {c next : Cursor} {t t' : ω} {far : Nat}

theorem Parser.peek_eq_done {a : α} (h : (peek p).run c t = (.done a next far, t')) :
    next = c ∧ ∃ n far', p.run c t = (.done a n far', t') := by
  simp only [peek] at h
  rcases hp : p.run c t with ⟨o, t₁⟩
  rw [hp] at h
  cases o with
  | done b n far₁ => cases h; exact ⟨rfl, n, far₁, rfl⟩
  | failed far₁ => cases h
  | rejected recipe => cases h

theorem Parser.peek_eq_failed (h : (peek p).run c t = (.failed far, t')) : p.run c t = (.failed far, t') := by
  simp only [peek] at h
  split at h
  · cases h
  · exact h

theorem Parser.absent_eq_done {a : Unit} (h : (absent p).run c t = (.done a next far, t')) :
    next = c ∧ ∃ far', p.run c t = (.failed far', t') := by
  simp only [absent] at h
  rcases hp : p.run c t with ⟨o, t₁⟩
  rw [hp] at h
  cases o with
  | done b n far₁ => cases h
  | failed far₁ => cases h; exact ⟨rfl, far₁, rfl⟩
  | rejected recipe => cases h

theorem Parser.absent_eq_failed (h : (absent p).run c t = (.failed far, t')) :
    ∃ a n far', p.run c t = (.done a n far', t') := by
  simp only [absent] at h
  rcases hp : p.run c t with ⟨o, t₁⟩
  rw [hp] at h
  cases o with
  | done b n far₁ => cases h; exact ⟨b, n, far₁, rfl⟩
  | failed far₁ => cases h
  | rejected recipe => cases h

theorem Parser.tracedBy_eq_failed [Listener ω] {rule : String} {data : α → Datum}
    (h : (tracedBy rule data p).run c t = (.failed far, t')) : p.run c t = (.failed far, t') := by
  simp only [tracedBy] at h
  split at h
  · cases h
  · exact h

end Inversion

/-- A parser that advances is like itself, wherever it ends the parse. -/
theorem Advances.alike {k : Nat} {p : Parser ω α} (h : Advances k p) (n : Nat) :
    Alike (fun _ _ => True) n k p p := by
  refine .self fun c t => ?_
  rcases hrun : p.run c t with ⟨o, t₁⟩
  cases o with
  | done a next far => exact h _ _ _ _ _ _ hrun
  | failed far => exact trivial
  | rejected recipe => exact ⟨c, .refl c, trivial⟩

/-- The blanks that are put after a line feed, and the text that follows them. -/
structure Gap where
  filling : List Char
  below : List Char
  blank : ∀ c ∈ filling, Text.isBlank c = true
  line : '\n' ∈ below
  plain : '\\' ∉ below

namespace Gap

variable (g : Gap)

/-- What is left of the text at one place, without and with the blanks. -/
inductive Twin : List Char → List Char → Prop
  | before {a : List Char} (h : '\\' ∉ a) : Twin (a ++ '\n' :: g.below) (a ++ '\n' :: (g.filling ++ g.below))
  | after {x : List Char} (h : x <:+ g.below) : Twin x x

/-- The text reaches over the gap. -/
def Over (x : List Char) : Prop :=
  g.below.length < x.length

variable {g} {x y n y' : List Char}

theorem Over.mono (h : g.Over n) (hn : n <:+ x) : g.Over x :=
  Nat.lt_of_lt_of_le h hn.length_le

theorem over_append (a : List Char) : g.Over (a ++ '\n' :: g.below) := by
  unfold Over
  simp only [List.length_append, List.length_cons]
  omega

/-- What is left before the gap ends with the line feed and the text below. -/
theorem eq_append_of_over {a : List Char} (hn : n <:+ a ++ '\n' :: g.below) (h : g.Over n) :
    ∃ a', a' <:+ a ∧ n = a' ++ '\n' :: g.below := by
  have hbelow : '\n' :: g.below <:+ a ++ '\n' :: g.below := List.suffix_append _ _
  obtain ⟨a', rfl⟩ := List.suffix_of_suffix_length_le hbelow hn h
  exact ⟨a', ((List.suffix_append_inj_of_length_eq rfl).1 hn).1, rfl⟩

namespace Twin

theorem not_over (h : x <:+ g.below) : ¬g.Over x :=
  Nat.not_lt_of_le h.length_le

theorem eq_of_not_over (h : g.Twin x y) (hx : ¬g.Over x) : y = x ∧ x <:+ g.below := by
  cases h with
  | before _ => exact absurd (over_append _) hx
  | after h => exact ⟨rfl, h⟩

theorem eq_of_over (h : g.Twin x y) (hx : g.Over x) :
    ∃ a, '\\' ∉ a ∧ x = a ++ '\n' :: g.below ∧ y = a ++ '\n' :: (g.filling ++ g.below) := by
  cases h with
  | before ha => exact ⟨_, ha, rfl, rfl⟩
  | after h => exact absurd hx (not_over h)

/-- The blanks keep the order of two places. -/
theorem length_lt (h : g.Twin x y) (h' : g.Twin n y') (hlt : n.length < x.length) : y'.length < y.length := by
  cases h with
  | before _ =>
    cases h' with
    | before _ =>
      simp only [List.length_append, List.length_cons] at hlt ⊢
      omega
    | after hn =>
      have hle := hn.length_le
      simp only [List.length_append, List.length_cons]
      omega
  | after hx =>
    cases h' with
    | @before a _ =>
      have hover : g.Over (a ++ '\n' :: g.below) := over_append a
      exact absurd (Nat.lt_trans hover hlt) (not_over hx)
    | after hn => exact hlt

end Twin

end Gap

/-- What `p` does on the text without the blanks, `q` does on the text with them.

With `f` this holds for failures before the gap, with `c` for successes that step over it. Before the gap the parsers
are compared only if `e` holds; then a value that is read on one side of the gap is the same. -/
structure Carries (g : Gap) (c f e : Prop) (p q : Parser ω α) : Prop where
  failed : ∀ {x y pos t far t'}, g.Twin x y → (g.Over x → e) → p.run ⟨x, pos⟩ t = (.failed far, t') →
    (g.Over x → f) → Refuses q y
  forward : Advances 0 p
  done : ∀ {x y pos t v next far t'}, g.Twin x y → (g.Over x → e) →
    p.run ⟨x, pos⟩ t = (.done v next far, t') → (g.Over x → c ∨ g.Over next.rest) →
      ∃ v' y', g.Twin next.rest y' ∧ Reads q y v' y' ∧ (e → (g.Over x → g.Over next.rest) → v = v')

/-- Whether `p` succeeds on the text without the blanks decides whether `q` does on the text with them. -/
structure Decided (g : Gap) (e : Prop) (p q : Parser ω α) : Prop where
  failed : ∀ {x y pos t far t'}, g.Twin x y → (g.Over x → e) → p.run ⟨x, pos⟩ t = (.failed far, t') → Refuses q y
  forward : Advances 0 p
  done : ∀ {x y pos t v next far t'}, g.Twin x y → (g.Over x → e) →
    p.run ⟨x, pos⟩ t = (.done v next far, t') → ∃ v' y', Reads q y v' y'

variable {g : Gap} {c f e : Prop} {p q : Parser ω α}

namespace Carries

theorem decided (h : Carries g True True e p q) : Decided g e p q where
  failed htwin he hrun := h.failed htwin he hrun fun _ => trivial
  forward := h.forward
  done htwin he hrun := by
    obtain ⟨v, y, -, hread, -⟩ := h.done htwin he hrun fun _ => .inl trivial
    exact ⟨v, y, hread⟩

theorem suffix (h : Carries g c f e p q) {x : List Char} {pos far : Nat} {t t' : ω} {v : α} {next : Cursor}
    (hrun : p.run ⟨x, pos⟩ t = (.done v next far, t')) : next.rest <:+ x :=
  (h.forward _ _ _ _ _ _ hrun).suffix

theorem weaken {c' f' : Prop} (h : Carries g c f e p q) (hc : c' → c) (hf : f' → f) : Carries g c' f' e p q where
  failed htwin he hrun hf' := h.failed htwin he hrun fun hover => hf (hf' hover)
  forward := h.forward
  done htwin he hrun hc' := h.done htwin he hrun fun hover => (hc' hover).imp_left hc

theorem assume {e' : Prop} (h : Carries g c f e p q) (he : e' → e) : Carries g c f e' p q where
  failed htwin he' hrun hf := h.failed htwin (fun hover => he (he' hover)) hrun hf
  forward := h.forward
  done htwin he' hrun hc := by
    obtain ⟨v, y, htwin', hread, hval⟩ := h.done htwin (fun hover => he (he' hover)) hrun hc
    exact ⟨v, y, htwin', hread, fun h' => hval (he h')⟩

theorem pure {a b : α} (h : e → a = b) : Carries g c f e (Pure.pure a : Parser ω α) (Pure.pure b) where
  failed _ _ hrun _ := by cases hrun
  forward _ _ _ _ _ _ hrun := by
    cases hrun
    exact .refl _
  done htwin _ hrun _ := by
    cases hrun
    exact ⟨b, _, htwin, .pure b _, fun he _ => h he⟩

/-- A parser that ends the parse. -/
theorem reject {recipe : String} : Carries g c f e (Parser.reject recipe : Parser ω α) (Parser.reject recipe) where
  failed _ _ hrun _ := by cases hrun
  forward _ _ _ _ _ _ hrun := by cases hrun
  done _ _ hrun _ := by cases hrun

/-- A parser that always fails. -/
theorem of_refuses (h : ∀ z, Refuses p z) : Carries g c f e p p := by
  have hno : ∀ {x pos t v next far t'}, p.run ⟨x, pos⟩ t ≠ (.done v next far, t') := by
    intro x pos t v next far t' hrun
    obtain ⟨far', t₁, hfail⟩ := h x pos t
    have heq := hrun.symm.trans hfail
    cases heq
  exact ⟨fun _ _ _ _ => h _, fun _ _ _ _ _ _ hrun => absurd hrun hno, fun _ _ hrun => absurd hrun hno⟩

section Bind

variable {cp fp : Prop} {k l : α → Parser ω β}

/-- **One parser after the other.** The second parts start at one place again if the first steps over the gap only in
ways that carry over; otherwise the second must not fail there. -/
theorem chain (hp : Carries g cp fp e p q)
    (hk : ∀ a b, (cp ∨ (e → a = b)) → Carries g c f (e ∧ a = b) (k a) (l b)) (hc : c → cp) (hf : f → fp)
    (hlast : f → cp ∨ ∀ a, NeverFails (k a)) : Carries g c f e (p >>= k) (q >>= l) := by
  -- where the first part carries over, the second parts start at one place
  have hmid : ∀ {x y : List Char} {pos t a n far t'}, g.Twin x y → (g.Over x → e) →
      p.run ⟨x, pos⟩ t = (.done a n far, t') → (g.Over x → cp ∨ g.Over n.rest) →
        ∃ b y', g.Twin n.rest y' ∧ Reads q y b y' ∧ (g.Over n.rest → e ∧ a = b) ∧
          (e → (g.Over x → g.Over n.rest) → a = b) ∧ Carries g c f (e ∧ a = b) (k a) (l b) := by
    intro x y pos t a n far t' htwin he hrun hstep
    obtain ⟨b, y', htwin', hread, hval⟩ := hp.done htwin he hrun hstep
    refine ⟨b, y', htwin', hread, fun hover => ?_, hval, hk a b ?_⟩
    · have he' := he (hover.mono (hp.suffix hrun))
      exact ⟨he', hval he' fun _ => hover⟩
    · by_cases hcp : cp
      · exact .inl hcp
      · exact .inr fun he' => hval he' fun hover => (hstep hover).resolve_left hcp
  refine ⟨?_, ?_, ?_⟩
  · intro x y pos t far t' htwin he hrun hfx
    rcases bind_eq_failed hrun with hrun | ⟨a, n, far₁, t₁, far₂, hrun₁, hrun₂⟩
    · exact (hp.failed htwin he hrun fun hover => hf (hfx hover)).bind
    -- the second part fails, so it is one that may fail after a step over the gap
    · have hstep : g.Over x → cp ∨ g.Over n.rest := by
        intro hover
        exact (hlast (hfx hover)).imp_right fun hnever => absurd hrun₂ (hnever a _ _ _ _)
      obtain ⟨b, y', htwin', hread, he', -, hkab⟩ := hmid htwin he hrun₁ hstep
      exact .bind_right hread (hkab.failed htwin' he' hrun₂ fun hover => hfx (hover.mono (hp.suffix hrun₁)))
  · intro c t v next far t' hrun
    obtain ⟨a, n, far₁, t₁, far₂, hrun₁, hrun₂⟩ := bind_eq_done hrun
    exact (hp.forward _ _ _ _ _ _ hrun₁).trans ((hk a a (.inr fun _ => rfl)).forward _ _ _ _ _ _ hrun₂)
  · intro x y pos t v next far t' htwin he hrun hstep
    obtain ⟨a, n, far₁, t₁, far₂, hrun₁, hrun₂⟩ := bind_eq_done hrun
    have hnext : next.rest <:+ n.rest := (hk a a (.inr fun _ => rfl)).suffix hrun₂
    have hstep₁ : g.Over x → cp ∨ g.Over n.rest :=
      fun hover => (hstep hover).imp hc fun hover' => hover'.mono hnext
    obtain ⟨b, y₁, htwin₁, hread₁, he', hval, hkab⟩ := hmid htwin he hrun₁ hstep₁
    obtain ⟨v', y₂, htwin₂, hread₂, hval'⟩ := hkab.done htwin₁ he' hrun₂
      fun hover => hstep (hover.mono (hp.suffix hrun₁))
    refine ⟨v', y₂, htwin₂, hread₁.bind hread₂, fun he hside => ?_⟩
    have hab : a = b := hval he fun hover => (hside hover).mono hnext
    exact hval' ⟨he, hab⟩ fun hover => hside (hover.mono (hp.suffix hrun₁))

/-- The first part carries over also where it steps over the gap. -/
theorem bind (hp : Carries g True f e p q) (hk : ∀ a b, Carries g c f (e ∧ a = b) (k a) (l b)) :
    Carries g c f e (p >>= k) (q >>= l) :=
  hp.chain (fun a b _ => hk a b) (fun _ => trivial) id fun _ => .inl trivial

/-- The second part does not fail. -/
theorem bind_last (hp : Carries g c f e p q) (hk : ∀ a b, Carries g c f (e ∧ a = b) (k a) (l b))
    (hlast : ∀ a, NeverFails (k a)) : Carries g c f e (p >>= k) (q >>= l) :=
  hp.chain (fun a b _ => hk a b) id id fun _ => .inr hlast

theorem map (hp : Carries g c f e p q) (h : α → β) : Carries g c f e (h <$> p) (h <$> q) :=
  hp.bind_last (fun _ _ => pure fun he => congrArg h he.2) fun _ => .pure _

end Bind

theorem orElse {p' q' : Parser ω α} (hp : Carries g c True e p q) (hp' : Carries g c f e p' q') :
    Carries g c f e (p <|> p') (q <|> q') := by
  refine ⟨?_, ?_, ?_⟩
  · intro x y pos t far t' htwin he hrun hfx
    obtain ⟨far₁, t₁, far₂, hrun₁, hrun₂⟩ := orElse_eq_failed hrun
    exact .orElse (hp.failed htwin he hrun₁ fun _ => trivial) (hp'.failed htwin he hrun₂ hfx)
  · intro c t v next far t' hrun
    rcases orElse_eq_done hrun with hrun | ⟨far₁, t₁, far₂, -, hrun⟩
    · exact hp.forward _ _ _ _ _ _ hrun
    · exact hp'.forward _ _ _ _ _ _ hrun
  · intro x y pos t v next far t' htwin he hrun hstep
    rcases orElse_eq_done hrun with hrun | ⟨far₁, t₁, far₂, hfail, hrun⟩
    · obtain ⟨v', y', htwin', hread, hval⟩ := hp.done htwin he hrun hstep
      exact ⟨v', y', htwin', hread.orElse_left, hval⟩
    · obtain ⟨v', y', htwin', hread, hval⟩ := hp'.done htwin he hrun hstep
      exact ⟨v', y', htwin', .orElse_right (hp.failed htwin he hfail fun _ => trivial) hread, hval⟩

theorem optional (hp : Carries g c True e p q) : Carries g c f e (Parser.optional p) (Parser.optional q) := by
  refine ⟨?_, ?_, ?_⟩
  · intro x y pos t far t' _ _ hrun
    exact absurd hrun (NeverFails.optional p _ _ _ _)
  · intro c t v next far t' hrun
    rcases optional_eq_done hrun with ⟨a, -, hrun⟩ | ⟨-, rfl, -⟩
    · exact hp.forward _ _ _ _ _ _ hrun
    · exact .refl _
  · intro x y pos t v next far t' htwin he hrun hstep
    rcases optional_eq_done hrun with ⟨a, rfl, hread⟩ | ⟨rfl, rfl, hfail⟩
    · obtain ⟨b, y', htwin', hread, hval⟩ := hp.done htwin he hread hstep
      exact ⟨some b, y', htwin', hread.optional, fun he hside => congrArg some (hval he hside)⟩
    · exact ⟨none, y, htwin, (hp.failed htwin he hfail fun _ => trivial).optional, fun _ _ => rfl⟩

theorem tracedBy [Listener ω] {rule : String} {data : α → Datum} (hp : Carries g c f e p q) :
    Carries g c f e (Parser.tracedBy rule data p) (Parser.tracedBy rule data q) := by
  refine ⟨?_, ?_, ?_⟩
  · intro x y pos t far t' htwin he hrun hfx
    exact (hp.failed htwin he (tracedBy_eq_failed hrun) hfx).tracedBy
  · intro c t v next far t' hrun
    obtain ⟨t₁, hrun⟩ := tracedBy_eq_done hrun
    exact hp.forward _ _ _ _ _ _ hrun
  · intro x y pos t v next far t' htwin he hrun hstep
    obtain ⟨t₁, hrun⟩ := tracedBy_eq_done hrun
    obtain ⟨v', y', htwin', hread, hval⟩ := hp.done htwin he hrun hstep
    exact ⟨v', y', htwin', hread.tracedBy, hval⟩

theorem traced [Listener ω] [ToDatum α] {rule : String} (hp : Carries g c f e p q) :
    Carries g c f e (Parser.traced rule p) (Parser.traced rule q) :=
  hp.tracedBy

/-- What a repetition reads is read again, in as many rounds. -/
theorem repeats (hp : Carries g c True e p q) (hahead : Advances 1 p) :
    ∀ n acc far x pos t as next far' t' y, x.length < n →
      Parser.manyLoop p n acc far ⟨x, pos⟩ t = (.done as next far', t') → g.Twin x y → (g.Over x → e) →
      (g.Over x → c ∨ g.Over next.rest) →
        ∃ vs vs' y', as = acc.reverse ++ vs ∧ g.Twin next.rest y' ∧ Repeats q y vs' y' ∧
          (e → (g.Over x → g.Over next.rest) → vs = vs') := by
  intro n
  induction n with
  | zero =>
    intro acc far x pos t as next far' t' y hn
    omega
  | succ n ih =>
    intro acc far x pos t as next far' t' y hn hrun htwin he hstep
    rw [Parser.manyLoop] at hrun
    rcases hone : p.run ⟨x, pos⟩ t with ⟨o, t₁⟩
    rw [hone] at hrun
    cases o with
    | done a n₁ far₁ =>
      have hn₁ := hahead _ _ _ _ _ _ hone
      have hlt : n₁.rest.length < x.length := hn₁.apart
      simp only at hrun
      -- the rounds after this one end at the same place or further on
      have hnext : next.rest <:+ n₁.rest := by
        have hmore := (hahead.alike _).manyLoop n (a :: acc) (max far far₁) n₁ n₁ t₁ (.refl _) (Nat.lt_succ_self _)
        rw [hrun] at hmore
        exact hmore.2.suffix
      obtain ⟨b, y₁, htwin₁, hread, hval⟩ := hp.done htwin he hone
        fun hover => (hstep hover).imp_right fun hover' => hover'.mono hnext
      obtain ⟨vs, vs', y', rfl, htwin', hrepeats, hvals⟩ := ih (a :: acc) _ n₁.rest n₁.pos _ _ _ _ _ y₁ (by omega)
        hrun htwin₁ (fun hover => he (hover.mono hn₁.suffix)) fun hover => hstep (hover.mono hn₁.suffix)
      refine ⟨a :: vs, b :: vs', y', ?_, htwin', .step hread (htwin.length_lt htwin₁ hlt) hrepeats, ?_⟩
      · rw [List.reverse_cons, List.append_assoc, List.singleton_append]
      · intro he' hside
        rw [hval he' fun hover => (hside hover).mono hnext,
          hvals he' fun hover => hside (hover.mono hn₁.suffix)]
    | failed far₁ =>
      cases hrun
      refine ⟨[], [], y, (List.append_nil _).symm, htwin, .stop ?_, fun _ _ => rfl⟩
      exact hp.failed htwin he hone fun _ => trivial
    | rejected recipe => cases hrun

theorem many (hp : Carries g c True e p q) (hahead : Advances 1 p) :
    Carries g c f e (Parser.many p) (Parser.many q) := by
  refine ⟨?_, ?_, ?_⟩
  · intro x y pos t far t' _ _ hrun
    exact absurd hrun (NeverFails.many p _ _ _ _)
  · exact .of_alike fun n => (hahead.alike n).many
  · intro x y pos t as next far t' htwin he hrun hstep
    obtain ⟨vs, vs', y', rfl, htwin', hrepeats, hval⟩ := hp.repeats hahead (x.length + 1) [] 0 x pos t as next far t' y
      (Nat.lt_succ_self _) hrun htwin he hstep
    exact ⟨vs', y', htwin', hrepeats.many, hval⟩

theorem many1 (hp : Carries g c True e p q) (hahead : Advances 1 p) :
    Carries g c True e (Parser.many1 p) (Parser.many1 q) := by
  refine hp.bind_last (fun a b => ?_) fun a => (NeverFails.many p).bind fun as => .pure _
  refine ((hp.assume And.left).many hahead).bind_last (fun as bs => pure ?_) fun as => .pure _
  rintro ⟨⟨-, rfl⟩, rfl⟩
  rfl

theorem sepBy {s r : Parser ω β} (hp : Carries g True True e p q) (hs : Carries g True True e s r)
    (hahead : Advances 1 (do let _ ← s; p)) : Carries g True True e (Parser.sepBy p s) (Parser.sepBy q r) := by
  refine orElse (hp.bind fun a b => ?_) (pure fun _ => rfl)
  have hmore : Carries g True True (e ∧ a = b) (do let _ ← s; p) (do let _ ← r; q) :=
    (hs.assume And.left).bind fun _ _ => hp.assume fun h => h.1.1
  refine (hmore.many hahead).bind fun as bs => pure ?_
  rintro ⟨⟨-, rfl⟩, rfl⟩
  rfl

theorem absent (hp : Decided g e p q) : Carries g c f e (Parser.absent p) (Parser.absent q) := by
  refine ⟨?_, ?_, ?_⟩
  · intro x y pos t far t' htwin he hrun _
    obtain ⟨a, n, far', hrun⟩ := absent_eq_failed hrun
    obtain ⟨v, y', hread⟩ := hp.done htwin he hrun
    exact hread.absent
  · intro c t v next far t' hrun
    obtain ⟨rfl, -⟩ := absent_eq_done hrun
    exact .refl _
  · intro x y pos t v next far t' htwin he hrun _
    obtain ⟨rfl, far', hfail⟩ := absent_eq_done hrun
    exact ⟨(), y, htwin, (hp.failed htwin he hfail).absent, fun _ _ => rfl⟩

end Carries

/-- What is read from before the gap ends before it. -/
def Stays (g : Gap) (p : Parser ω α) : Prop :=
  ∀ a pos t v next far t', p.run ⟨a ++ '\n' :: g.below, pos⟩ t = (.done v next far, t') → g.Over next.rest

/-- A parser that looks ahead without stepping over the gap gives the same value to both sides. -/
theorem Carries.bind_peek {P : α → Prop} {k l : α → Parser ω β} (hp : Carries g True True True p p) (hstay : Stays g p)
    (hvalue : Yields p P) (hk : ∀ a, P a → Carries g c f e (k a) (l a)) :
    Carries g c f e (peek p >>= k) (peek p >>= l) := by
  -- the value of the first part is the same, and the place did not change
  have hpeek : ∀ {x y : List Char} {pos t a n far t'}, g.Twin x y → p.run ⟨x, pos⟩ t = (.done a n far, t') →
      Reads (peek p) y a y := by
    intro x y pos t a n far t' htwin hrun
    obtain ⟨v, y', -, hread, hval⟩ := hp.done htwin (fun _ => trivial) hrun fun _ => .inl trivial
    -- what is looked at ends before the gap
    have hside : g.Over x → g.Over n.rest := by
      intro hover
      cases htwin with
      | before _ => exact hstay _ _ _ _ _ _ _ hrun
      | after hx => exact absurd hover (Gap.Twin.not_over hx)
    rw [← hval trivial hside] at hread
    exact hread.peek
  refine ⟨?_, ?_, ?_⟩
  · intro x y pos t far t' htwin he hrun hfx
    rcases bind_eq_failed hrun with hrun | ⟨a, n, far₁, t₁, far₂, hrun₁, hrun₂⟩
    · exact .bind (hp.failed htwin (fun _ => trivial) (peek_eq_failed hrun) fun _ => trivial).peek
    · obtain ⟨rfl, m, far', hone⟩ := peek_eq_done hrun₁
      exact .bind_right (hpeek htwin hone) ((hk a (hvalue _ _ _ _ _ _ hone)).failed htwin he hrun₂ hfx)
  · intro c t v next far t' hrun
    obtain ⟨a, n, far₁, t₁, far₂, hrun₁, hrun₂⟩ := bind_eq_done hrun
    obtain ⟨rfl, m, far', hone⟩ := peek_eq_done hrun₁
    exact (hk a (hvalue _ _ _ _ _ _ hone)).forward _ _ _ _ _ _ hrun₂
  · intro x y pos t v next far t' htwin he hrun hstep
    obtain ⟨a, n, far₁, t₁, far₂, hrun₁, hrun₂⟩ := bind_eq_done hrun
    obtain ⟨rfl, m, far', hone⟩ := peek_eq_done hrun₁
    obtain ⟨v', y', htwin', hread, hval⟩ := (hk a (hvalue _ _ _ _ _ _ hone)).done htwin he hrun₂ hstep
    exact ⟨v', y', htwin', (hpeek htwin hone).bind hread, hval⟩

namespace Stays

theorem orElse (hp : Stays g p) (hq : Stays g q) : Stays g (p <|> q) := by
  intro a pos t v next far t' hrun
  rcases orElse_eq_done hrun with hrun | ⟨far₁, t₁, far₂, -, hrun⟩
  · exact hp _ _ _ _ _ _ _ hrun
  · exact hq _ _ _ _ _ _ _ hrun

theorem traced [Listener ω] [ToDatum α] {rule : String} (hp : Stays g p) : Stays g (traced rule p) := by
  intro a pos t v next far t' hrun
  obtain ⟨t₁, hrun⟩ := tracedBy_eq_done hrun
  exact hp _ _ _ _ _ _ _ hrun

theorem manyLoop (hp : Stays g p) (hahead : Advances 0 p) :
    ∀ n acc far c t as next far' t', Parser.manyLoop p n acc far c t = (.done as next far', t') →
      (∃ a, c.rest = a ++ '\n' :: g.below) → g.Over next.rest := by
  intro n
  induction n with
  | zero =>
    rintro acc far ⟨x, pos⟩ t as next far' t' hrun ⟨a, rfl⟩
    cases hrun
    exact Gap.over_append a
  | succ n ih =>
    rintro acc far ⟨x, pos⟩ t as next far' t' hrun ⟨a, rfl⟩
    rw [Parser.manyLoop] at hrun
    rcases hone : p.run ⟨a ++ '\n' :: g.below, pos⟩ t with ⟨o, t₁⟩
    rw [hone] at hrun
    cases o with
    | done v n₁ far₁ =>
      obtain ⟨a', -, ha'⟩ := Gap.eq_append_of_over (hahead _ _ _ _ _ _ hone).suffix (hp _ _ _ _ _ _ _ hone)
      exact ih _ _ _ _ _ _ _ _ hrun ⟨a', ha'⟩
    | failed far₁ =>
      cases hrun
      exact Gap.over_append a
    | rejected recipe => cases hrun

theorem many1 (hp : Stays g p) (hahead : Advances 0 p) : Stays g (many1 p) := by
  intro a pos t v next far t' hrun
  obtain ⟨b, n₁, far₁, t₁, far₂, hone, hrun⟩ := bind_eq_done hrun
  obtain ⟨bs, n₂, far₃, t₂, far₄, hmany, hrun⟩ := bind_eq_done hrun
  cases hrun
  obtain ⟨a', -, ha'⟩ := Gap.eq_append_of_over (hahead _ _ _ _ _ _ hone).suffix (hp _ _ _ _ _ _ _ hone)
  exact hp.manyLoop hahead _ _ _ _ _ _ _ _ _ hmany ⟨a', ha'⟩

end Stays

namespace Decided

theorem map (hp : Decided g e p q) (h : α → β) : Decided g e (h <$> p) (h <$> q) where
  failed htwin he hrun := by
    rcases bind_eq_failed hrun with hrun | ⟨a, n, far₁, t₁, far₂, -, hrun⟩
    · exact (hp.failed htwin he hrun).map h
    · cases hrun
  forward := .of_alike fun n => (hp.forward.alike n).map h
  done htwin he hrun := by
    obtain ⟨a, n, far₁, t₁, far₂, hrun, -⟩ := bind_eq_done hrun
    obtain ⟨v, y, hread⟩ := hp.done htwin he hrun
    exact ⟨h v, y, hread.map h⟩

theorem orElse {p' q' : Parser ω α} (hp : Decided g e p q) (hp' : Decided g e p' q') :
    Decided g e (p <|> p') (q <|> q') where
  failed htwin he hrun := by
    obtain ⟨far₁, t₁, far₂, hrun₁, hrun₂⟩ := orElse_eq_failed hrun
    exact .orElse (hp.failed htwin he hrun₁) (hp'.failed htwin he hrun₂)
  forward := .of_alike fun n => (hp.forward.alike n).orElse (hp'.forward.alike n)
  done htwin he hrun := by
    rcases orElse_eq_done hrun with hrun | ⟨far₁, t₁, far₂, hfail, hrun⟩
    · obtain ⟨v, y, hread⟩ := hp.done htwin he hrun
      exact ⟨v, y, hread.orElse_left⟩
    · obtain ⟨v, y, hread⟩ := hp'.done htwin he hrun
      exact ⟨v, y, .orElse_right (hp.failed htwin he hfail) hread⟩

theorem traced [Listener ω] [ToDatum α] {rule : String} (hp : Decided g e p q) :
    Decided g e (traced rule p) (Parser.traced rule q) where
  failed htwin he hrun := (hp.failed htwin he (tracedBy_eq_failed hrun)).traced
  forward := .of_alike fun n => (hp.forward.alike n).traced
  done htwin he hrun := by
    obtain ⟨t₁, hrun⟩ := tracedBy_eq_done hrun
    obtain ⟨v, y, hread⟩ := hp.done htwin he hrun
    exact ⟨v, y, hread.traced⟩

theorem peek (hp : Decided g e p q) : Decided g e (Parser.peek p) (Parser.peek q) where
  failed htwin he hrun := (hp.failed htwin he (peek_eq_failed hrun)).peek
  forward := .of_alike fun n => (hp.forward.alike n).peek
  done htwin he hrun := by
    obtain ⟨-, n, far', hrun⟩ := peek_eq_done hrun
    obtain ⟨v, y, hread⟩ := hp.done htwin he hrun
    exact ⟨v, _, hread.peek⟩

end Decided

section Until

variable {s r : Parser ω β} {least m count : Nat} {acc : List α} {y y' mid : List Char} {a : α} {as : List α}

/-- Another value is read: no end stands here, or there are too few values yet. -/
def GoesOn (r : Parser ω β) (least count : Nat) (y : List Char) : Prop :=
  Refuses r y ∨ count < least ∧ ∃ b z, Reads r y b z

/-- A round of a repetition up to an end that reads another value. -/
theorem untilLoop_goesOn (q : Parser ω α) (m : Nat) (acc : List α) (h : GoesOn r least count y) (pos : Nat) (t : ω) :
    ∃ t₁, untilLoop q r least (m + 1) count acc ⟨y, pos⟩ t = untilRound q r least m count acc ⟨y, pos⟩ t₁ := by
  rcases h with h | ⟨hlt, b, z, h⟩
  · obtain ⟨far, t₁, hrun⟩ := h pos t
    refine ⟨t₁, ?_⟩
    rw [untilLoop_succ, hrun]
  · obtain ⟨next, far, t₁, hrun⟩ := h pos t
    refine ⟨t₁, ?_⟩
    rw [untilLoop_succ, hrun]
    simp only
    rw [if_neg (by omega)]

theorem Reads.untilLoop_step (h : GoesOn r least count y) (hq : Reads q y a mid)
    (hmore : Reads ⟨untilLoop q r least m (count + 1) (a :: acc)⟩ mid as y') :
    Reads ⟨untilLoop q r least (m + 1) count acc⟩ y as y' := by
  intro pos t
  obtain ⟨t₁, hround⟩ := untilLoop_goesOn q m acc h pos t
  obtain ⟨next, far, t₂, hone⟩ := hq pos t₁
  obtain ⟨next', far', t₃, hrest⟩ := hmore next t₂
  refine ⟨next', far', t₃, ?_⟩
  show untilLoop q r least (m + 1) count acc ⟨y, pos⟩ t = _
  rw [hround, untilRound, hone]
  exact hrest

theorem Refuses.untilLoop_step (h : GoesOn r least count y) (hq : Reads q y a mid)
    (hmore : Refuses ⟨untilLoop q r least m (count + 1) (a :: acc)⟩ mid) :
    Refuses ⟨untilLoop q r least (m + 1) count acc⟩ y := by
  intro pos t
  obtain ⟨t₁, hround⟩ := untilLoop_goesOn q m acc h pos t
  obtain ⟨next, far, t₂, hone⟩ := hq pos t₁
  obtain ⟨far', t₃, hrest⟩ := hmore next t₂
  refine ⟨far', t₃, ?_⟩
  show untilLoop q r least (m + 1) count acc ⟨y, pos⟩ t = _
  rw [hround, untilRound, hone]
  exact hrest

theorem Refuses.untilLoop_here (h : GoesOn r least count y) (hq : Refuses q y) :
    Refuses ⟨untilLoop q r least (m + 1) count acc⟩ y := by
  intro pos t
  obtain ⟨t₁, hround⟩ := untilLoop_goesOn q m acc h pos t
  obtain ⟨far, t₂, hone⟩ := hq pos t₁
  refine ⟨pos, t₂, ?_⟩
  show untilLoop q r least (m + 1) count acc ⟨y, pos⟩ t = _
  rw [hround, untilRound, hone]

theorem Reads.untilLoop_stop {b : β} (h : Reads r y b mid) (hcount : least ≤ count) :
    Reads ⟨untilLoop q r least (m + 1) count acc⟩ y acc.reverse y := by
  intro pos t
  obtain ⟨next, far, t₁, hrun⟩ := h pos t
  refine ⟨pos, 0, t₁, ?_⟩
  show untilLoop q r least (m + 1) count acc ⟨y, pos⟩ t = _
  rw [untilLoop_succ, hrun]
  simp only
  rw [if_pos hcount]

/-- What a run of a loop from `x` says about another loop on `y`. Both have read values already. -/
def Follows (g : Gap) (e : Prop) (x : List Char) (acc acc' : List α) (loop : Parser ω (List α)) (y : List Char) :
    Outcome (List α) → Prop
  | .done as next _ => next.rest <:+ x ∧ ∃ vs vs' y', as = acc.reverse ++ vs ∧ g.Twin next.rest y' ∧
      Reads loop y (acc'.reverse ++ vs') y' ∧ (e → (g.Over x → g.Over next.rest) → vs = vs')
  | .failed _ => Refuses loop y
  | .rejected _ => True

theorem Carries.untilLoop (hp : Carries g True True e p q) (hs : Decided g e s r) (hahead : Advances 1 p) :
    ∀ n m count acc acc' x pos t y, x.length < n → y.length < m → g.Twin x y → (g.Over x → e) →
      Follows g e x acc acc' ⟨Parser.untilLoop q r least m count acc'⟩ y
        (Parser.untilLoop p s least n count acc ⟨x, pos⟩ t).1 := by
  intro n
  induction n with
  | zero =>
    intro m count acc acc' x pos t y hn
    omega
  | succ n ih =>
    intro m count acc acc' x pos t y hn hm htwin he
    obtain ⟨m, rfl⟩ : ∃ m', m = m' + 1 := ⟨m - 1, by omega⟩
    -- the round that reads another value, on both sides
    have hround : GoesOn r least count y → ∀ t₁, Follows g e x acc acc' ⟨Parser.untilLoop q r least (m + 1) count acc'⟩ y
        (untilRound p s least n count acc ⟨x, pos⟩ t₁).1 := by
      intro hon t₁
      unfold untilRound
      rcases hone : p.run ⟨x, pos⟩ t₁ with ⟨o, t₂⟩
      cases o with
      | done a n₁ far₁ =>
        have hn₁ := hahead _ _ _ _ _ _ hone
        have hlt : n₁.rest.length < x.length := hn₁.apart
        obtain ⟨b, y₁, htwin₁, hread, hval⟩ := hp.done htwin he hone fun _ => .inl trivial
        have hlt' := htwin.length_lt htwin₁ hlt
        have hmore := ih m (count + 1) (a :: acc) (b :: acc') n₁.rest n₁.pos t₂ y₁ (by omega) (by omega) htwin₁
          fun hover => he (hover.mono hn₁.suffix)
        simp only
        rcases hrest : Parser.untilLoop p s least n (count + 1) (a :: acc) n₁ t₂ with ⟨o, t₃⟩
        rw [hrest] at hmore
        cases o with
        | done as next far =>
          obtain ⟨hnext, vs, vs', y', rfl, htwin', hreads, hvals⟩ := hmore
          refine ⟨hnext.trans hn₁.suffix, a :: vs, b :: vs', y', ?_, htwin', ?_, fun he' hside => ?_⟩
          · rw [List.reverse_cons, List.append_assoc, List.singleton_append]
          · rw [List.reverse_cons, List.append_assoc, List.singleton_append] at hreads
            exact .untilLoop_step hon hread hreads
          · rw [hval he' fun hover => (hside hover).mono hnext,
              hvals he' fun hover => hside (hover.mono hn₁.suffix)]
        | failed far => exact .untilLoop_step hon hread hmore
        | rejected recipe => exact trivial
      | failed far₁ => exact .untilLoop_here hon (hp.failed htwin he hone fun _ => trivial)
      | rejected recipe => exact trivial
    rw [untilLoop_succ]
    rcases hstop : s.run ⟨x, pos⟩ t with ⟨o, t₁⟩
    cases o with
    | done b next far =>
      -- an end stands on both sides, after as many values
      obtain ⟨b', z, hread⟩ := hs.done htwin he hstop
      simp only
      split
      · rename_i hleast
        refine ⟨List.suffix_rfl, [], [], y, (List.append_nil _).symm, htwin, ?_, fun _ _ => rfl⟩
        rw [List.append_nil]
        exact hread.untilLoop_stop hleast
      · rename_i hleast
        exact hround (.inr ⟨by omega, b', z, hread⟩) t₁
    | failed far => exact hround (.inl (hs.failed htwin he hstop)) t₁
    | rejected recipe => exact trivial

theorem Carries.untilEnd (hp : Carries g True True e p q) (hs : Decided g e s r) (hahead : Advances 1 p) :
    Carries g c f e (Parser.untilEnd p s least) (Parser.untilEnd q r least) := by
  have hloop : ∀ {x y : List Char} (pos : Nat) (t : ω), g.Twin x y → (g.Over x → e) →
      Follows g e x [] [] ⟨Parser.untilLoop q r least (y.length + 1) 0 []⟩ y
        ((Parser.untilEnd p s least).run ⟨x, pos⟩ t).1 :=
    fun pos t htwin he => hp.untilLoop hs hahead _ _ 0 [] [] _ pos t _ (Nat.lt_succ_self _) (Nat.lt_succ_self _) htwin he
  refine ⟨?_, ?_, ?_⟩
  · intro x y pos t far t' htwin he hrun _
    have h := hloop pos t htwin he
    rw [hrun] at h
    exact h
  · exact .of_alike fun n => ((hahead.alike n).untilEnd (hs.forward.alike n) least).weaken
  · intro x y pos t as next far t' htwin he hrun _
    have h := hloop pos t htwin he
    rw [hrun] at h
    obtain ⟨-, vs, vs', y', rfl, htwin', hread, hval⟩ := h
    exact ⟨vs', y', htwin', hread, hval⟩

end Until

end Justfile.Parsing
