import Justfile.Command.Options
import Mathlib.Data.List.Basic
import Mathlib.Data.List.Nodup
import Mathlib.Data.List.TakeDrop
import Mathlib.Data.List.TakeWhile

/-!
# How options are written

The argument lists that choose given options, told apart from how they are read. Letters may stand together after one
dash, and the last of them may have its value joined to it, with or without an equals sign. A long name may be
shortened while only one name starts so. A value that is an argument of its own must not look like an option.

* `Word`: the arguments that are options, with what they choose and the option that waits for its value.
* `Operand`: the arguments that can be values.
* `Spells`: the argument lists that choose given options.
* `parse_eq_ok_iff`: these lists are read as what they choose, and no others.
-/

namespace Justfile.Command.Options

variable {κ : Type} {os : Options κ} {s : Spec κ} {c : Char} {cs w value : List Char}
  {chosen more : List (Choice κ)} {waiting : Option (Spec κ)}

/-- Letters that stand together after one dash. -/
inductive Letters (os : Options κ) : List Char → List (Choice κ) → Option (Spec κ) → Prop
  | flag {c : Char} {s : Spec κ} (h : (['-', c], s) ∈ os.names) (hs : s.takesValue = false) :
      Letters os [c] [(s.key, none)] none
  | waiting {c : Char} {s : Spec κ} (h : (['-', c], s) ∈ os.names) (hs : s.takesValue = true) :
      Letters os [c] [] (some s)
  | joined {c d : Char} {s : Spec κ} {value : List Char} (h : (['-', c], s) ∈ os.names)
      (hs : s.takesValue = true) (hd : d ≠ '=') :
      Letters os (c :: d :: value) [(s.key, some (String.ofList (d :: value)))] none
  | signed {c : Char} {s : Spec κ} {value : List Char} (h : (['-', c], s) ∈ os.names) (hs : s.takesValue = true) :
      Letters os (c :: '=' :: value) [(s.key, some (String.ofList value))] none
  | cons {c : Char} {cs : List Char} {s : Spec κ} {chosen : List (Choice κ)} {waiting : Option (Spec κ)}
      (h : (['-', c], s) ∈ os.names) (hs : s.takesValue = false) (hcs : Letters os cs chosen waiting) :
      Letters os (c :: cs) ((s.key, none) :: chosen) waiting

/-- The option of a long name: of the whole name, or of a start that no other name has. -/
inductive Long (os : Options κ) : List Char → Spec κ → Prop
  | whole {name : List Char} {s : Spec κ} (h : (name, s) ∈ os.names) (hdashes : ['-', '-'] <+: name) : Long os name s
  | start {w name : List Char} {s : Spec κ} (h : (name, s) ∈ os.names) (hdashes : ['-', '-'] <+: w) (hw : w <+: name)
      (honly : ∀ n ∈ os.names, w <+: n.1 → n.1 = name) : Long os w s

/-- An argument that is an option or several, with what it chooses and the option that waits for its value. -/
inductive Word (os : Options κ) : List Char → List (Choice κ) → Option (Spec κ) → Prop
  | letters {cs : List Char} {chosen : List (Choice κ)} {waiting : Option (Spec κ)} (h : Letters os cs chosen waiting) :
      Word os ('-' :: cs) chosen waiting
  | flag {w : List Char} {s : Spec κ} (h : Long os w s) (hs : s.takesValue = false) : Word os w [(s.key, none)] none
  | waiting {w : List Char} {s : Spec κ} (h : Long os w s) (hs : s.takesValue = true) : Word os w [] (some s)
  | signed {w value : List Char} {s : Spec κ} (h : Long os w s) (hs : s.takesValue = true) :
      Word os (w ++ '=' :: value) [(s.key, some (String.ofList value))] none

/-- Whether an argument may be meant as an option of a name. -/
def Fits (arg name : List Char) : Prop :=
  name = arg.take 2 ∨ ['-', '-'] <+: arg ∧ arg.takeWhile (· != '=') <+: name

/-- An argument that can be the value of an option. -/
inductive Operand (os : Options κ) : List Char → Prop
  | plain {arg : List Char} (h : arg.head? ≠ some '-') : Operand os arg
  | dash : Operand os ['-']
  | other {arg : List Char} (h : isNegativeNumber arg = true ∨ ' ' ∈ arg) (hfits : ∀ n ∈ os.names, ¬Fits arg n.1) :
      Operand os arg

/-- The argument lists that choose given options. If an option waits, the first argument is its value. -/
inductive Spells (os : Options κ) : Option (Spec κ) → List String → List (Choice κ) → Prop
  | nil : Spells os none [] []
  | word {arg : String} {rest : List String} {chosen more : List (Choice κ)} {waiting : Option (Spec κ)}
      (h : Word os arg.toList chosen waiting) (hdashes : arg ≠ "--") (hrest : Spells os waiting rest more) :
      Spells os none (arg :: rest) (chosen ++ more)
  | value {value : String} {rest : List String} {s : Spec κ} {more : List (Choice κ)}
      (h : Operand os value.toList) (hrest : Spells os none rest more) :
      Spells os (some s) (value :: rest) ((s.key, some value) :: more)

/-! ### Names -/

/-- A dash and a letter, or two dashes and a word. -/
def isName : List Char → Bool
  | ['-', c] => c != '-' && c != '='
  | '-' :: '-' :: c :: cs => !(c :: cs).contains '='
  | _ => false

/-- The names differ, and each is a dash and a letter or two dashes and a word. -/
structure Regular (os : Options κ) : Prop where
  nodup : (os.names.map (·.1)).Nodup
  form : ∀ n ∈ os.names, isName n.1 = true

namespace Regular

theorem letter (h : Regular os) (hc : (['-', c], s) ∈ os.names) : c ≠ '-' ∧ c ≠ '=' := by
  simpa [isName] using h.form _ hc

theorem eq_nil (h : Regular os) (hn : ('-' :: c :: cs, s) ∈ os.names) (hc : c ≠ '-') : cs = [] := by
  have hform := h.form _ hn
  cases cs with
  | nil => rfl
  | cons d cs => simp [isName, hc] at hform

theorem sign_notMem (h : Regular os) (hn : (w, s) ∈ os.names) : '=' ∉ w := by
  have hform := h.form _ hn
  dsimp only at hform
  fun_cases isName w with
  | case1 c =>
    have hc : c ≠ '-' ∧ c ≠ '=' := by simpa [isName] using hform
    simp [hc.2.symm]
  | case2 c cs => simpa [isName] using hform
  | case3 => simp_all [isName]

/-- A name fits alone if all that fit are equal to it. -/
theorem filter_eq_singleton_iff (h : Regular os) {p : List Char → Bool} :
    os.names.filter (fun n => p n.1) = [(w, s)] ↔
      (w, s) ∈ os.names ∧ p w = true ∧ ∀ n ∈ os.names, p n.1 = true → n.1 = w := by
  constructor
  · intro hone
    have hmem : ∀ n, n ∈ os.names ∧ p n.1 = true ↔ n = (w, s) := fun n =>
      List.mem_filter.symm.trans (hone ▸ List.mem_singleton)
    exact ⟨((hmem _).2 rfl).1, ((hmem _).2 rfl).2, fun n hn hp => by rw [(hmem n).1 ⟨hn, hp⟩]⟩
  · rintro ⟨hw, hp, honly⟩
    have hmem : (w, s) ∈ os.names.filter (fun n => p n.1) := List.mem_filter.2 ⟨hw, hp⟩
    have hkeys : ∀ n ∈ os.names.filter (fun n => p n.1), n.1 = w := fun n hn =>
      honly n (List.mem_filter.1 hn).1 (List.mem_filter.1 hn).2
    have hnodup : ((os.names.filter (fun n => p n.1)).map (·.1)).Nodup :=
      h.nodup.sublist (List.filter_sublist.map _)
    generalize os.names.filter (fun n => p n.1) = l at hmem hkeys hnodup
    match l with
    | [] => cases hmem
    | [n] => rw [List.mem_singleton.1 hmem]
    | n :: m :: l =>
      have heq : n.1 = m.1 := (hkeys n (by simp)).trans (hkeys m (by simp)).symm
      simp [heq] at hnodup

theorem filter_eq_of_mem (h : Regular os) (hw : (w, s) ∈ os.names) :
    os.names.filter (fun n => n.1 == w) = [(w, s)] :=
  (h.filter_eq_singleton_iff (p := (· == w))).2 ⟨hw, beq_self_eq_true w, fun _ _ hn => beq_iff_eq.1 hn⟩

theorem find?_eq_some_iff (h : Regular os) : os.find? w = some s ↔ (w, s) ∈ os.names := by
  unfold Options.find?
  constructor
  · intro hfind
    obtain ⟨n, hn, rfl⟩ := Option.map_eq_some_iff.1 hfind
    have hw : n.1 = w := by simpa using List.find?_some hn
    rw [← hw]
    exact List.mem_of_find?_eq_some hn
  · intro hmem
    rw [← List.head?_filter, h.filter_eq_of_mem hmem]
    rfl

theorem find?_eq_none_iff (h : Regular os) : os.find? w = none ↔ ∀ s, (w, s) ∉ os.names := by
  rw [Option.eq_none_iff_forall_ne_some]
  exact forall_congr' fun s => not_congr h.find?_eq_some_iff

end Regular

/-! ### One argument -/

/-- What follows a letter, as a value attached to its option. -/
def attached : List Char → Option Attached
  | [] => none
  | '=' :: value => some ⟨true, value⟩
  | c :: cs => some ⟨false, c :: cs⟩

/-- A step with a choice before its own. -/
def Step.after (s : Spec κ) (step : Step κ) : Step κ :=
  { step with choices := (s.key, none) :: step.choices }

theorem attached_cons {d : Char} (hd : d ≠ '=') : attached (d :: cs) = some ⟨false, d :: cs⟩ := by
  unfold attached
  split <;> simp_all

theorem expand_of_takesValue (hs : s.takesValue = true) (sign : Bool) :
    os.expand s w sign value = .ok ⟨[(s.key, some (String.ofList value))], none, []⟩ := by
  rw [expand.eq_def]
  cases value <;> exact if_pos hs

/-- An option without a value is not written with one. -/
theorem expand_ne_ok {sign : Bool} {step : Step κ} (hs : s.takesValue = false)
    (h : ['-', '-'] <+: w ∨ sign = true ∨ value.head? = some '-') : os.expand s w sign value ≠ .ok step := by
  rw [expand.eq_def]
  cases value with
  | nil => simp [hs, throw, throwThe, MonadExceptOf.throw]
  | cons d value =>
    have h : (['-', '-'] <+: w ∨ sign = true) ∨ d = '-' := by simpa [or_assoc] using h
    simp [hs, h, throw, throwThe, MonadExceptOf.throw]

/-- A letter that takes no value leaves the rest to the next one. -/
theorem expand_cons (hs : s.takesValue = false) (hc : c ≠ '-') {d : Char} (hd : d ≠ '-') :
    os.expand s ['-', c] false (d :: cs) =
      match os.find? ['-', d] with
      | none => .ok ⟨[(s.key, none)], none, [String.ofList ('-' :: d :: cs)]⟩
      | some next => Step.after s <$> os.step next ['-', d] (attached cs) := by
  have hname : "--".toList.isPrefixOf ['-', c] = false := by simp [List.isPrefixOf, hc.symm]
  have hd' : (d == '-') = false := beq_eq_false_iff_ne.2 hd
  rw [expand.eq_def]
  simp only [hs, hname, hd', Bool.false_eq_true, if_false, Bool.or_self]
  cases os.find? ['-', d] with
  | none => rfl
  | some next =>
    fun_cases attached cs with
    | case1 =>
      dsimp only [step]
      cases next.takesValue <;> rfl
    | case2 value => rfl
    | case3 c cs h =>
      split
      · cases ‹_ = none›
      · cases ‹_ = []›
      · cases ‹_ :: _ = _›
        exact absurd rfl h
      · cases ‹some _ = some _›
        rfl

/-- A letter that takes a value takes all that follows it, or waits. -/
theorem step_of_takesValue (hc : (['-', c], s) ∈ os.names) (hs : s.takesValue = true) (cs : List Char) :
    ∃ chosen waiting, os.step s ['-', c] (attached cs) = .ok ⟨chosen, waiting, []⟩ ∧
      Letters os (c :: cs) chosen waiting := by
  cases cs with
  | nil => exact ⟨[], some s, if_pos hs, .waiting hc hs⟩
  | cons d cs =>
    by_cases hsign : d = '='
    · subst hsign
      exact ⟨_, none, expand_of_takesValue hs true, .signed hc hs⟩
    · rw [attached_cons hsign]
      exact ⟨_, none, expand_of_takesValue hs false, .joined hc hs hsign⟩

theorem letters_of_step (hos : Regular os) (hc : (['-', c], s) ∈ os.names)
    (h : os.step s ['-', c] (attached cs) = .ok ⟨chosen, waiting, []⟩) : Letters os (c :: cs) chosen waiting := by
  induction cs generalizing c s chosen with
  | nil =>
    cases hs : s.takesValue with
    | true =>
      obtain ⟨_, _, hstep, hletters⟩ := step_of_takesValue hc hs []
      cases h.symm.trans hstep
      exact hletters
    | false =>
      rw [attached, step, if_neg (Bool.eq_false_iff.1 hs)] at h
      cases h
      exact .flag hc hs
  | cons d cs ih =>
    cases hs : s.takesValue with
    | true =>
      obtain ⟨_, _, hstep, hletters⟩ := step_of_takesValue hc hs (d :: cs)
      cases h.symm.trans hstep
      exact hletters
    | false =>
      -- what follows is no value, so it has to be a letter
      by_cases hsign : d = '='
      · subst hsign
        exact absurd h (expand_ne_ok hs (.inr (.inl rfl)))
      by_cases hdash : d = '-'
      · rw [attached_cons hsign] at h
        exact absurd h (expand_ne_ok hs (.inr (.inr (congrArg some hdash))))
      rw [attached_cons hsign, step, expand_cons hs (hos.letter hc).1 hdash] at h
      cases hnext : os.find? ['-', d] with
      | none =>
        rw [hnext] at h
        cases h
      | some next =>
        cases hstep : os.step next ['-', d] (attached cs) with
        | error f =>
          simp only [hnext, hstep] at h
          cases h
        | ok st =>
          simp only [hnext, hstep] at h
          obtain ⟨choices, pending, extra⟩ := st
          cases h
          exact .cons hc hs (ih (hos.find?_eq_some_iff.1 hnext) hstep)

theorem step_of_letters (hos : Regular os) (h : Letters os w chosen waiting) :
    ∃ c cs s, w = c :: cs ∧ (['-', c], s) ∈ os.names ∧
      os.step s ['-', c] (attached cs) = .ok ⟨chosen, waiting, []⟩ := by
  induction h with
  | @flag c s h hs => exact ⟨c, [], s, rfl, h, if_neg (by rw [hs]; exact Bool.false_ne_true)⟩
  | @waiting c s h hs => exact ⟨c, [], s, rfl, h, if_pos hs⟩
  | @joined c d s value h hs hd =>
    refine ⟨c, d :: value, s, rfl, h, ?_⟩
    rw [attached_cons hd]
    exact expand_of_takesValue hs false
  | @signed c s value h hs => exact ⟨c, '=' :: value, s, rfl, h, expand_of_takesValue hs true⟩
  | @cons c cs s chosen waiting h hs _ ih =>
    obtain ⟨d, cs, next, rfl, hd, hstep⟩ := ih
    refine ⟨c, d :: cs, s, rfl, h, ?_⟩
    obtain ⟨hdash, hsign⟩ := hos.letter hd
    rw [attached_cons hsign]
    change os.expand s ['-', c] false (d :: cs) = _
    simp only [expand_cons hs (hos.letter h).1 hdash, hos.find?_eq_some_iff.2 hd, hstep]
    rfl

theorem splitSign_of_notMem (h : '=' ∉ w) : splitSign w = (w, none) := by
  have hall : ∀ d ∈ w, (d != '=') = true := fun d hd => bne_iff_ne.2 fun heq => h (heq ▸ hd)
  simp [splitSign, List.span_eq_takeWhile_dropWhile, List.takeWhile_eq_self_iff.2 hall,
    List.dropWhile_eq_nil_iff.2 hall]

theorem splitSign_append (h : '=' ∉ w) (value : List Char) : splitSign (w ++ '=' :: value) = (w, some value) := by
  have hall : ∀ d ∈ w, (d != '=') = true := fun d hd => bne_iff_ne.2 fun heq => h (heq ▸ hd)
  simp [splitSign, List.span_eq_takeWhile_dropWhile, List.takeWhile_append_of_pos hall,
    List.dropWhile_append_of_pos hall]

theorem splitSign_fst (arg : List Char) : (splitSign arg).1 = arg.takeWhile (· != '=') := by
  unfold splitSign
  rw [List.span_eq_takeWhile_dropWhile]
  split <;> simp_all

theorem shortFits_eq (hos : Regular os) (hc : c ≠ '-') : os.shortFits ('-' :: c :: cs) =
    (os.names.filter fun n => n.1 == ['-', c]).map fun n => (n.1, .option n.2 n.1 (some ⟨false, cs⟩)) := by
  rw [← List.filterMap_eq_map, List.filterMap_filter]
  refine List.filterMap_congr fun n hn => ?_
  obtain ⟨name, s⟩ := n
  by_cases heq : name = ['-', c]
  · simp [heq]
  have hstart : ('-' :: c :: cs).isPrefixOf name = false := by
    rw [← Bool.not_eq_true, List.isPrefixOf_iff_prefix]
    rintro ⟨rest, rfl⟩
    exact heq (congrArg ('-' :: c :: ·) (hos.eq_nil hn hc))
  simp [heq, hstart]

theorem classifyDashed_letter (hos : Regular os) (hc : (['-', c], s) ∈ os.names) :
    os.classifyDashed ('-' :: c :: cs) = .ok (.option s ['-', c] (attached cs)) := by
  have hletter := hos.letter hc
  have hfind : os.find? ['-', c] = some s := hos.find?_eq_some_iff.2 hc
  have hlong : ∀ d cs, os.find? ('-' :: c :: d :: cs) = none := fun d cs =>
    hos.find?_eq_none_iff.2 fun s hs => nomatch hos.eq_nil hs hletter.1
  cases cs with
  | nil => simp only [classifyDashed, hfind]; rfl
  | cons d cs =>
    by_cases hsign : d = '='
    · subst hsign
      have hsplit : splitSign ('-' :: c :: '=' :: cs) = (['-', c], some cs) :=
        splitSign_append (w := ['-', c]) (by simp [hletter.2.symm]) cs
      simp only [classifyDashed, hlong, hsplit, hfind]
      rfl
    · have hstart : ∃ more, (splitSign ('-' :: c :: d :: cs)).1 = '-' :: c :: d :: more := by
        rw [splitSign_fst]
        exact ⟨cs.takeWhile (· != '='), by simp [hletter.2, hsign]⟩
      obtain ⟨more, hmore⟩ := hstart
      have hdashes : "--".toList.isPrefixOf ('-' :: c :: d :: cs) = false := by simp [List.isPrefixOf, hletter.1.symm]
      rw [classifyDashed]
      rcases hsplit : splitSign ('-' :: c :: d :: cs) with ⟨start, value⟩
      rw [hsplit] at hmore
      cases hmore
      simp only [hlong, hdashes, shortFits_eq hos hletter.1, hos.filter_eq_of_mem hc, attached_cons hsign]
      rfl

theorem Long.dashes (h : Long os w s) : ['-', '-'] <+: w := by
  cases h with
  | whole _ hdashes => exact hdashes
  | start _ hdashes => exact hdashes

theorem Long.sign_notMem (hos : Regular os) (h : Long os w s) : '=' ∉ w := by
  cases h with
  | whole h => exact hos.sign_notMem h
  | start h _ hw => exact fun hmem => hos.sign_notMem h (hw.subset hmem)

/-- A long name, also a shortened one, is taken as the option that has it. -/
theorem classifyDashed_long (hos : Regular os) (h : Long os w s) : ∃ name, ['-', '-'] <+: name ∧
    os.classifyDashed w = .ok (.option s name none) ∧
    ∀ value, os.classifyDashed (w ++ '=' :: value) = .ok (.option s name (some ⟨true, value⟩)) := by
  have hsign := h.sign_notMem hos
  have hsplit := splitSign_of_notMem hsign
  have hsplit' := splitSign_append hsign
  have hnone : ∀ value, os.find? (w ++ '=' :: value) = none := fun value =>
    hos.find?_eq_none_iff.2 fun _ hmem => hos.sign_notMem hmem (by simp)
  cases hfind : os.find? w with
  | some s' =>
    have hmem : (w, s) ∈ os.names := by
      cases h with
      | whole h => exact h
      | start h _ _ honly =>
        have hname := honly _ (hos.find?_eq_some_iff.1 hfind) (List.prefix_refl w)
        cases hname
        exact h
    rw [hos.find?_eq_some_iff.2 hmem] at hfind
    cases hfind
    have hfind := hos.find?_eq_some_iff.2 hmem
    refine ⟨w, h.dashes, ?_, fun value => ?_⟩
    · simp only [classifyDashed, hfind]; rfl
    · simp only [classifyDashed, hnone, hsplit', hfind]; rfl
  | none =>
    cases h with
    | whole h => rw [hos.find?_eq_some_iff.2 h] at hfind; cases hfind
    | start h hdashes hw honly =>
      rename_i name
      have hone : os.names.filter (fun n => w.isPrefixOf n.1) = [(name, s)] :=
        (hos.filter_eq_singleton_iff (p := w.isPrefixOf)).2
          ⟨h, List.isPrefixOf_iff_prefix.2 hw, fun n hn hp => honly n hn (List.isPrefixOf_iff_prefix.1 hp)⟩
      have hprefix : "--".toList.isPrefixOf w = true := List.isPrefixOf_iff_prefix.2 hdashes
      have hprefix' : ∀ value, "--".toList.isPrefixOf (w ++ '=' :: value) = true := fun value =>
        List.isPrefixOf_iff_prefix.2 (hdashes.trans (List.prefix_append ..))
      refine ⟨name, hdashes.trans hw, ?_, fun value => ?_⟩
      · simp only [classifyDashed, hfind, hsplit, hprefix, if_true, longFits, hone]
        rfl
      · simp only [classifyDashed, hnone, hsplit', hfind, hprefix', if_true, longFits, hone]
        rfl

theorem exists_sign (arg : List Char) :
    arg = arg.takeWhile (· != '=') ∨ ∃ value, arg = arg.takeWhile (· != '=') ++ '=' :: value := by
  rw [← splitSign_fst]
  by_cases h : '=' ∈ arg
  · obtain ⟨w, value, rfl, hw⟩ := List.eq_append_cons_of_mem h
    rw [splitSign_append hw]
    exact .inr ⟨value, rfl⟩
  · rw [splitSign_of_notMem h]
    exact .inl rfl

theorem classifyDashed_ambiguous (hos : Regular os) {arg name : List Char} (hdashes : ['-', '-'] <+: arg)
    (hsign : arg = w ∨ ∃ value, arg = w ++ '=' :: value) (hw : '=' ∉ w) (hwhole : ¬∃ s, (w, s) ∈ os.names)
    (hn : (name, s) ∈ os.names) (hstart : w <+: name) (hmore : ¬∀ m ∈ os.names, w <+: m.1 → m.1 = name) :
    ∃ f, os.classifyDashed arg = .error f := by
  have hfind : os.find? w = none := hos.find?_eq_none_iff.2 (not_exists.1 hwhole)
  have hfind' : os.find? arg = none := by
    rcases hsign with rfl | ⟨value, rfl⟩
    · exact hfind
    · exact hos.find?_eq_none_iff.2 fun s hs => hos.sign_notMem hs (by simp)
  have hsplit : ∃ value, splitSign arg = (w, value) := by
    rcases hsign with rfl | ⟨value, rfl⟩
    · exact ⟨none, splitSign_of_notMem hw⟩
    · exact ⟨some value, splitSign_append hw value⟩
  obtain ⟨value, hsplit⟩ := hsplit
  have hprefix : "--".toList.isPrefixOf arg = true := List.isPrefixOf_iff_prefix.2 hdashes
  simp only [classifyDashed, hfind', hfind, hprefix, if_true, longFits, hsplit]
  have hmem : (name, s) ∈ os.names.filter (fun n => w.isPrefixOf n.1) :=
    List.mem_filter.2 ⟨hn, List.isPrefixOf_iff_prefix.2 hstart⟩
  rcases hfilter : os.names.filter (fun n => w.isPrefixOf n.1) with _ | ⟨m, _ | ⟨m', l⟩⟩
  · rw [hfilter] at hmem
    cases hmem
  · rw [hfilter, List.mem_singleton] at hmem
    subst hmem
    obtain ⟨-, -, honly⟩ := (hos.filter_eq_singleton_iff (p := w.isPrefixOf)).1 hfilter
    exact absurd (fun m hm hp => honly m hm (List.isPrefixOf_iff_prefix.2 hp)) hmore
  · rw [hfilter]
    exact ⟨_, rfl⟩

/-- An argument that fits no name is a value if it has a blank or is a number. -/
theorem classifyDashed_of_not_fits (hos : Regular os) (h : ∀ n ∈ os.names, ¬Fits ('-' :: c :: cs) n.1) :
    os.classifyDashed ('-' :: c :: cs) = .ok
      (if isNegativeNumber ('-' :: c :: cs) || ('-' :: c :: cs).contains ' ' then .operand else .unknown) := by
  have hsplit := splitSign_fst ('-' :: c :: cs)
  by_cases hc : c = '-'
  · subst hc
    have hstart : ∀ n ∈ os.names, ¬('-' :: '-' :: cs).takeWhile (· != '=') <+: n.1 := fun n hn hp =>
      h n hn (.inr ⟨⟨cs, rfl⟩, hp⟩)
    have hfind : os.find? (splitSign ('-' :: '-' :: cs)).1 = none :=
      hos.find?_eq_none_iff.2 fun s hs => hstart _ hs (hsplit ▸ List.prefix_refl _)
    have hfind' : os.find? ('-' :: '-' :: cs) = none :=
      hos.find?_eq_none_iff.2 fun s hs => hstart _ hs (List.takeWhile_prefix _)
    have hnone : os.names.filter (fun n => (splitSign ('-' :: '-' :: cs)).1.isPrefixOf n.1) = [] :=
      List.filter_eq_nil_iff.2 fun n hn hp => hstart n hn (hsplit ▸ List.isPrefixOf_iff_prefix.1 hp)
    have hprefix : "--".toList.isPrefixOf ('-' :: '-' :: cs) = true := rfl
    simp only [classifyDashed, hfind, hfind', hprefix, if_true, longFits, hnone]
    rfl
  · have hletter : ∀ s, (['-', c], s) ∉ os.names := fun s hs => h _ hs (.inl rfl)
    have hname : ∀ more s, ('-' :: c :: more, s) ∉ os.names := fun more s hs => by
      cases hos.eq_nil hs hc
      exact hletter s hs
    have hfind : os.find? (splitSign ('-' :: c :: cs)).1 = none := by
      refine hos.find?_eq_none_iff.2 fun s hs => ?_
      rw [hsplit] at hs
      by_cases hsign : c = '='
      · subst hsign
        exact Bool.false_ne_true (hos.form _ hs)
      · have hsign : (c != '=') = true := bne_iff_ne.2 hsign
        rw [List.takeWhile_cons_of_pos (by rfl), List.takeWhile_cons_of_pos (p := (· != '=')) hsign] at hs
        exact hname _ s hs
    have hfind' : os.find? ('-' :: c :: cs) = none := hos.find?_eq_none_iff.2 (hname cs)
    have hnone : os.names.filter (fun n => n.1 == ['-', c]) = [] :=
      List.filter_eq_nil_iff.2 fun n hn hp => hletter n.2 (beq_iff_eq.1 hp ▸ hn)
    have hprefix : "--".toList.isPrefixOf ('-' :: c :: cs) = false := by simp [List.isPrefixOf, Ne.symm hc]
    simp only [classifyDashed, hfind, hfind', hprefix, shortFits_eq hos hc, hnone]
    rfl

/-- How an argument is to be taken. -/
inductive Classified (os : Options κ) : List Char → Except UsageFault (Reading κ) → Prop
  | letter {c : Char} {cs : List Char} {s : Spec κ} (h : (['-', c], s) ∈ os.names) :
      Classified os ('-' :: c :: cs) (.ok (.option s ['-', c] (attached cs)))
  | long {w name : List Char} {s : Spec κ} (h : Long os w s) (hname : ['-', '-'] <+: name) :
      Classified os w (.ok (.option s name none))
  | signed {w name value : List Char} {s : Spec κ} (h : Long os w s) (hname : ['-', '-'] <+: name) :
      Classified os (w ++ '=' :: value) (.ok (.option s name (some ⟨true, value⟩)))
  | ambiguous {arg : List Char} {f : UsageFault} : Classified os arg (.error f)
  | operand {arg : List Char} (h : Operand os arg) : Classified os arg (.ok .operand)
  | unknown {arg : List Char} : Classified os arg (.ok .unknown)

theorem classifyDashed_of_fits (hos : Regular os) {n : List Char × Spec κ} (hn : n ∈ os.names)
    (hfits : Fits ('-' :: c :: cs) n.1) : Classified os ('-' :: c :: cs) (os.classifyDashed ('-' :: c :: cs)) := by
  obtain ⟨name, s⟩ := n
  rcases hfits with hshort | ⟨hdashes, hstart⟩
  · cases hshort
    rw [classifyDashed_letter hos hn]
    exact .letter hn
  generalize '-' :: c :: cs = arg at hdashes hstart ⊢
  have hsign := exists_sign arg
  have hw : '=' ∉ arg.takeWhile (· != '=') := fun hmem => by simpa using List.mem_takeWhile_imp hmem
  have hdashes' : ['-', '-'] <+: arg.takeWhile (· != '=') := by
    obtain ⟨rest, rfl⟩ := hdashes
    exact ⟨rest.takeWhile (· != '='), rfl⟩
  generalize arg.takeWhile (· != '=') = w at hstart hsign hw hdashes'
  have hlong : ∀ s, Long os w s → Classified os arg (os.classifyDashed arg) := by
    intro s h
    obtain ⟨name, hname, hnone, hsome⟩ := classifyDashed_long hos h
    rcases hsign with rfl | ⟨value, rfl⟩
    · rw [hnone]
      exact .long h hname
    · rw [hsome]
      exact .signed h hname
  -- a whole name counts even if it is also the start of another
  by_cases hwhole : ∃ s, (w, s) ∈ os.names
  · obtain ⟨s, hs⟩ := hwhole
    exact hlong s (.whole hs hdashes')
  by_cases honly : ∀ m ∈ os.names, w <+: m.1 → m.1 = name
  · exact hlong s (.start hn hdashes' hstart honly)
  obtain ⟨f, hf⟩ := classifyDashed_ambiguous hos hdashes hsign hw hwhole hn hstart honly
  rw [hf]
  exact .ambiguous

theorem classify_of_toList {arg : String} (h : arg.toList = '-' :: c :: cs) :
    os.classify arg = os.classifyDashed ('-' :: c :: cs) := by
  unfold classify
  rw [h]
  rfl

theorem classify_of_not_dashed {arg : String} (h : ¬∃ c cs, arg.toList = '-' :: c :: cs) :
    os.classify arg = .ok .operand := by
  unfold classify
  split
  · exact absurd ⟨_, _, ‹_›⟩ h
  · rfl

theorem operand_of_not_dashed {arg : List Char} (h : ¬∃ c cs, arg = '-' :: c :: cs) : Operand os arg := by
  rcases arg with _ | ⟨d, _ | ⟨c, cs⟩⟩
  · exact .plain (by simp)
  · by_cases hd : d = '-'
    · subst hd
      exact .dash
    · exact .plain (by simpa using hd)
  · refine .plain fun hd => h ?_
    cases hd
    exact ⟨c, cs, rfl⟩

theorem isOther_iff {arg : List Char} :
    (isNegativeNumber arg || arg.contains ' ') = true ↔ isNegativeNumber arg = true ∨ ' ' ∈ arg := by
  rw [Bool.or_eq_true, List.contains_iff_mem]

theorem classify_classified (hos : Regular os) (arg : String) : Classified os arg.toList (os.classify arg) := by
  by_cases hdashed : ∃ c cs, arg.toList = '-' :: c :: cs
  swap
  · rw [classify_of_not_dashed hdashed]
    exact .operand (operand_of_not_dashed hdashed)
  obtain ⟨c, cs, harg⟩ := hdashed
  rw [classify_of_toList harg, harg]
  by_cases hfits : ∃ n ∈ os.names, Fits ('-' :: c :: cs) n.1
  · obtain ⟨n, hn, hfits⟩ := hfits
    exact classifyDashed_of_fits hos hn hfits
  · have hfits : ∀ n ∈ os.names, ¬Fits ('-' :: c :: cs) n.1 := fun n hn h => hfits ⟨n, hn, h⟩
    rw [classifyDashed_of_not_fits hos hfits]
    split
    · exact .operand (.other (isOther_iff.1 ‹_›) hfits)
    · exact .unknown

theorem classify_of_operand (hos : Regular os) {arg : String} (h : Operand os arg.toList) :
    os.classify arg = .ok .operand := by
  by_cases hdashed : ∃ c cs, arg.toList = '-' :: c :: cs
  swap
  · exact classify_of_not_dashed hdashed
  obtain ⟨c, cs, harg⟩ := hdashed
  rw [harg] at h
  cases h with
  | plain h => exact absurd rfl h
  | other h hfits => rw [classify_of_toList harg, classifyDashed_of_not_fits hos hfits, if_pos (isOther_iff.2 h)]

theorem operand_of_classify (hos : Regular os) {arg : String} (h : os.classify arg = .ok .operand) :
    Operand os arg.toList := by
  have hclassified := classify_classified hos arg
  rw [h] at hclassified
  generalize arg.toList = cs at hclassified ⊢
  cases hclassified with
  | operand h => exact h

theorem word_of_classify (hos : Regular os) {arg : String} {name : List Char} {a : Option Attached}
    (h : os.classify arg = .ok (.option s name a)) (hstep : os.step s name a = .ok ⟨chosen, waiting, []⟩) :
    Word os arg.toList chosen waiting := by
  have hclassified := classify_classified hos arg
  rw [h] at hclassified
  generalize arg.toList = cs at hclassified ⊢
  cases hclassified with
  | letter hs => exact .letters (letters_of_step hos hs hstep)
  | long hw =>
    cases hs : s.takesValue with
    | false =>
      rw [step, if_neg (Bool.eq_false_iff.1 hs)] at hstep
      cases hstep
      exact .flag hw hs
    | true =>
      rw [step, if_pos hs] at hstep
      cases hstep
      exact .waiting hw hs
  | signed hw hname =>
    cases hs : s.takesValue with
    | false => exact absurd hstep (expand_ne_ok hs (.inl hname))
    | true =>
      rw [step, expand_of_takesValue hs] at hstep
      cases hstep
      exact .signed hw hs

theorem Long.eq_cons (h : Long os w s) : ∃ cs, w = '-' :: '-' :: cs := by
  obtain ⟨cs, rfl⟩ := h.dashes
  exact ⟨cs, rfl⟩

theorem classify_of_word (hos : Regular os) {arg : String} (h : Word os arg.toList chosen waiting) :
    ∃ s name a, os.classify arg = .ok (.option s name a) ∧ os.step s name a = .ok ⟨chosen, waiting, []⟩ := by
  generalize harg : arg.toList = w at h
  cases h with
  | letters h =>
    obtain ⟨c, cs, s, rfl, hs, hstep⟩ := step_of_letters hos h
    exact ⟨s, _, _, (classify_of_toList harg).trans (classifyDashed_letter hos hs), hstep⟩
  | @flag _ s h hs =>
    obtain ⟨name, -, hnone, -⟩ := classifyDashed_long hos h
    obtain ⟨cs, rfl⟩ := h.eq_cons
    exact ⟨s, name, none, (classify_of_toList harg).trans hnone, if_neg (Bool.eq_false_iff.1 hs)⟩
  | @waiting _ s h hs =>
    obtain ⟨name, -, hnone, -⟩ := classifyDashed_long hos h
    obtain ⟨cs, rfl⟩ := h.eq_cons
    exact ⟨s, name, none, (classify_of_toList harg).trans hnone, if_pos hs⟩
  | @signed _ value s h hs =>
    obtain ⟨name, -, -, hsign⟩ := classifyDashed_long hos h
    obtain ⟨cs, rfl⟩ := h.eq_cons
    exact ⟨s, name, _, (classify_of_toList harg).trans (hsign value), expand_of_takesValue hs true⟩

/-! ### Argument lists -/

variable {ends : κ → Bool} {args : List String} {l : List (String × Reading κ)} {r : List (Choice κ)}

/-- An argument that is not recognized is never forgotten. -/
theorem consume_any {extra : List String} (hextra : extra ≠ []) (h : os.consume ends waiting chosen extra l = .ok r) :
    r.any (ends ·.1) = true := by
  fun_induction consume os ends waiting chosen extra l with
  | case1 => cases h
  | case2 _ _ hempty => exact absurd (List.isEmpty_iff.1 hempty) hextra
  | case3 => cases h
  | case4 _ _ _ _ _ chosen hany => exact Except.ok.inj h ▸ hany
  | case5 _ _ _ _ _ _ _ ih => exact ih hextra h
  | case6 => cases h
  | case7 => cases h
  | case8 _ _ _ _ _ _ _ _ _ chosen hany => exact Except.ok.inj h ▸ (Bool.and_eq_true_iff.1 hany).2
  | case9 _ _ _ _ _ _ _ step _ chosen _ ih => exact ih (List.append_ne_nil_of_left_ne_nil hextra _) h
  | case10 _ _ _ _ _ _ ih => exact ih (List.append_ne_nil_of_left_ne_nil hextra _) h

theorem classifyAll_cons {arg : String} (harg : arg ≠ "--") : os.classifyAll (arg :: args) = .ok l ↔
    ∃ reading l', os.classify arg = .ok reading ∧ os.classifyAll args = .ok l' ∧ l = (arg, reading) :: l' := by
  rw [classifyAll, if_neg harg]
  cases os.classify arg with
  | error f => exact ⟨nofun, fun ⟨_, _, h, _⟩ => nomatch h⟩
  | ok reading =>
    cases os.classifyAll args with
    | error f => exact ⟨nofun, fun ⟨_, _, _, h, _⟩ => nomatch h⟩
    | ok l' =>
      refine ⟨fun h => ⟨reading, l', rfl, rfl, ?_⟩, ?_⟩
      · cases h
        rfl
      · rintro ⟨_, _, ⟨⟩, ⟨⟩, rfl⟩
        rfl

/-- **One argument.** Unless it ends the reading, it is an option or the value of one. -/
theorem consume_step {arg : String} {reading : Reading κ}
    (h : os.consume ends waiting chosen [] ((arg, reading) :: l) = .ok r) (hends : r.any (ends ·.1) = false) :
    (∃ s name a choices pending, waiting = none ∧ reading = .option s name a ∧
      os.step s name a = .ok ⟨choices, pending, []⟩ ∧ os.consume ends pending (chosen ++ choices) [] l = .ok r) ∨
    ∃ s, waiting = some s ∧ reading = .operand ∧
      os.consume ends none (chosen ++ [(s.key, some arg)]) [] l = .ok r := by
  have hrecognized : ∀ {waiting chosen extra}, os.consume ends waiting chosen extra l = .ok r → extra = [] := by
    intro waiting chosen extra h
    by_contra hextra
    rw [consume_any hextra h] at hends
    cases hends
  have hother : os.consume ends none chosen [arg] l ≠ .ok r := fun h => List.cons_ne_nil _ _ (hrecognized h)
  cases waiting with
  | none =>
    cases reading with
    | operand => exact absurd h hother
    | separator => exact absurd h hother
    | unknown => exact absurd h hother
    | option s name a =>
      cases hstep : os.step s name a with
      | error f =>
        simp only [consume, hstep] at h
        cases h
      | ok st =>
        obtain ⟨choices, pending, extra⟩ := st
        simp only [consume, hstep] at h
        split at h
        next hany =>
          cases h
          rw [(Bool.and_eq_true_iff.1 hany).2] at hends
          cases hends
        · have hextra : extra = [] := hrecognized h
          subst hextra
          exact .inl ⟨s, name, a, choices, pending, rfl, rfl, hstep, h⟩
  | some s =>
    cases reading with
    | operand =>
      simp only [consume] at h
      split at h
      next hany =>
        cases h
        rw [hany] at hends
        cases hends
      · exact .inr ⟨s, rfl, rfl, h⟩
    | separator => cases h
    | unknown => cases h
    | option => cases h

theorem spells_of_consume (hos : Regular os) (hl : os.classifyAll args = .ok l)
    (h : os.consume ends waiting chosen [] l = .ok r) (hends : r.any (ends ·.1) = false) :
    ∃ more, r = chosen ++ more ∧ Spells os waiting args more := by
  induction args generalizing waiting chosen l with
  | nil =>
    cases hl
    cases waiting with
    | none =>
      cases h
      exact ⟨[], (List.append_nil _).symm, .nil⟩
    | some s => cases h
  | cons arg args ih =>
    by_cases hdashes : arg = "--"
    · rw [classifyAll, if_pos hdashes] at hl
      cases hl
      rcases consume_step h hends with ⟨_, _, _, _, _, _, hreading, _⟩ | ⟨_, _, hreading, _⟩ <;> cases hreading
    obtain ⟨reading, l, hreading, hrest, rfl⟩ := (classifyAll_cons hdashes).1 hl
    rcases consume_step h hends with ⟨s, name, a, choices, pending, rfl, rfl, hstep, hnext⟩ | ⟨s, rfl, rfl, hnext⟩
    · obtain ⟨more, rfl, hmore⟩ := ih hrest hnext
      exact ⟨choices ++ more, List.append_assoc .., .word (word_of_classify hos hreading hstep) hdashes hmore⟩
    · obtain ⟨more, rfl, hmore⟩ := ih hrest hnext
      exact ⟨(s.key, some arg) :: more, List.append_assoc .., .value (operand_of_classify hos hreading) hmore⟩

theorem consume_of_spells (hos : Regular os) (ends : κ → Bool) (chosen : List (Choice κ))
    (h : Spells os waiting args more) :
    ∃ l r, os.classifyAll args = .ok l ∧ os.consume ends waiting chosen [] l = .ok r ∧ r <+: chosen ++ more ∧
      (r.any (ends ·.1) = true ∨ r = chosen ++ more) := by
  induction h generalizing chosen with
  | nil => exact ⟨[], chosen, rfl, rfl, List.prefix_append .., .inr (List.append_nil _).symm⟩
  | @word arg rest choices more waiting h hdashes _ ih =>
    obtain ⟨s, name, a, hclassify, hstep⟩ := classify_of_word hos h
    obtain ⟨l, r, hl, hconsume, hprefix, hend⟩ := ih (chosen ++ choices)
    rw [List.append_assoc] at hprefix hend
    have hall := (classifyAll_cons hdashes).2 ⟨_, l, hclassify, hl, rfl⟩
    by_cases hany : (waiting.isNone && (chosen ++ choices).any (ends ·.1)) = true
    · refine ⟨_, chosen ++ choices, hall, ?_, ⟨more, List.append_assoc ..⟩, .inl (Bool.and_eq_true_iff.1 hany).2⟩
      simp only [consume, hstep, if_pos hany]
      rfl
    · refine ⟨_, r, hall, ?_, hprefix, hend⟩
      simp only [consume, hstep, if_neg hany]
      exact hconsume
  | @value value rest s more h _ ih =>
    have hdashes : value ≠ "--" := by
      rintro rfl
      cases h with
      | plain h => exact absurd rfl h
      | other h => exact absurd h (by decide)
    have hchosen : chosen ++ (s.key, some value) :: more = chosen ++ [(s.key, some value)] ++ more := by simp
    rw [hchosen]
    obtain ⟨l, r, hl, hconsume, hprefix, hend⟩ := ih (chosen ++ [(s.key, some value)])
    have hall := (classifyAll_cons hdashes).2 ⟨_, l, classify_of_operand hos h, hl, rfl⟩
    by_cases hany : (chosen ++ [(s.key, some value)]).any (ends ·.1) = true
    · refine ⟨_, _, hall, ?_, List.prefix_append .., .inl hany⟩
      simp only [consume, if_pos hany]
      rfl
    · refine ⟨_, r, hall, ?_, hprefix, hend⟩
      simp only [consume, if_neg hany]
      exact hconsume

/-- An argument list that chooses options is read up to the first of them that ends the reading. -/
theorem parse_of_spells (hos : Regular os) (ends : κ → Bool) (h : Spells os none args chosen) :
    ∃ r, os.parse ends args = .ok r ∧ r <+: chosen ∧ (r.any (ends ·.1) = true ∨ r = chosen) := by
  obtain ⟨l, r, hl, hconsume, hprefix, hend⟩ := consume_of_spells hos ends [] h
  refine ⟨r, ?_, hprefix, hend⟩
  unfold parse
  rw [hl]
  exact hconsume

/-- Unless an option ends the reading, the argument lists that are read as given options are those that choose them. -/
theorem parse_eq_ok_iff (hos : Regular os) (ends : κ → Bool) (hends : chosen.any (ends ·.1) = false) :
    os.parse ends args = .ok chosen ↔ Spells os none args chosen := by
  constructor
  · intro h
    unfold parse at h
    cases hl : os.classifyAll args with
    | error f =>
      rw [hl] at h
      cases h
    | ok l =>
      rw [hl] at h
      obtain ⟨more, rfl, hmore⟩ := spells_of_consume hos hl h hends
      exact hmore
  · intro h
    obtain ⟨r, hr, ⟨rest, rfl⟩, hend⟩ := parse_of_spells hos ends h
    rw [List.any_append, Bool.or_eq_false_iff] at hends
    rcases hend with hany | heq
    · rw [hends.1] at hany
      cases hany
    · rw [← heq]
      exact hr

end Justfile.Command.Options
