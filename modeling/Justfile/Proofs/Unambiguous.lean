import Justfile.Proofs.Reads
import Justfile.Proofs.Takes

/-!
# Texts of expressions are unambiguous

The function of a conditional is named after a digest of the conditional's text. Texts inside it choose their own
quotes and may look like any other part of an expression, so that it has to be shown that two expressions never
have the same text.

Each kind of text is split off from whatever follows it: `a ++ r = b ++ s` gives `a = b` and `r = s`.

* `readChar`: what stands for one character between quotes. `readChar_quotedChar`: it reads back what is written.
* `quoted_append_inj`: texts between quotes end by themselves.
* `quotedChars_append_inj`: so do data, where what follows does not go on with a name.
* `Expr.datum_inj`: expressions are told apart by their data.
* `test_names_unambiguous`: two conditionals share a function just if they are the same or their digests are.
-/

namespace Justfile

open Shell Shell.Names Parsing

namespace Text

/-- The value of hexadecimal digits. -/
def hexNumber (ds : List Char) : Nat :=
  ds.foldl (fun n d => 16 * n + (hexValue? d).getD 0) 0

theorem hexValue?_hexDigit : ∀ n < 16, hexValue? (hexDigit n) = some n := by decide

theorem length_hex (width n : Nat) : (hex width n).length = width := by
  induction width generalizing n with
  | zero => rfl
  | succ width ih => rw [hex, List.length_append, ih, List.length_singleton]

theorem hexNumber_hex {width n : Nat} (h : n < 16 ^ width) : hexNumber (hex width n) = n := by
  induction width generalizing n with
  | zero =>
    rw [Nat.pow_zero, Nat.lt_one_iff] at h
    rw [h]
    rfl
  | succ width ih =>
    have hdiv : n / 16 < 16 ^ width := by
      rw [Nat.div_lt_iff_lt_mul (by omega), ← Nat.pow_succ]
      exact h
    have hdigit := hexValue?_hexDigit (n % 16) (Nat.mod_lt n (by omega))
    have hfront : (hex width (n / 16)).foldl (fun n d => 16 * n + (hexValue? d).getD 0) 0 = n / 16 := ih hdiv
    rw [hex, hexNumber, List.foldl_append, hfront, List.foldl_cons, List.foldl_nil, hdigit, Option.getD_some]
    exact Nat.div_add_mod n 16

/-- The character whose code point has `width` digits, and what follows it. -/
def readCode (width : Nat) (cs : List Char) : Char × List Char :=
  (Char.ofNat (hexNumber (cs.take width)), cs.drop width)

theorem readCode_hex {width : Nat} {c : Char} (h : c.toNat < 16 ^ width) (r : List Char) :
    readCode width (hex width c.toNat ++ r) = (c, r) := by
  unfold readCode
  rw [List.take_left' (length_hex _ _), List.drop_left' (length_hex _ _), hexNumber_hex h, Char.ofNat_toNat]

/-- The character that an escape stands for, from the letter after the backslash on. -/
def readEscape (letter : Char) (cs : List Char) : Char × List Char :=
  if letter = 'n' then ('\n', cs)
  else if letter = 'r' then ('\r', cs)
  else if letter = 't' then ('\t', cs)
  else if letter = 'x' then readCode 2 cs
  else if letter = 'u' then readCode 4 cs
  else if letter = 'U' then readCode 8 cs
  else (letter, cs)

/-- The first character that a text between quotes stands for, and what follows it. -/
def readChar : List Char → Option (Char × List Char)
  | [] => none
  | c :: cs => if c = '\\' then cs.head?.map fun letter => readEscape letter cs.tail else some (c, cs)

variable {q : Char}

theorem readChar_codeEscape (c : Char) (r : List Char) : readChar (codeEscape c ++ r) = some (c, r) := by
  have hmax : c.toNat < 16 ^ 8 := c.val.toNat_lt
  unfold codeEscape
  simp only
  split
  · rename_i h
    exact congrArg some (readCode_hex h r)
  · split
    · rename_i h
      exact congrArg some (readCode_hex h r)
    · exact congrArg some (readCode_hex hmax r)

/-- **What is written for a character is read back.** -/
theorem readChar_quotedChar (hq : q = '\'' ∨ q = '"') (c : Char) (r : List Char) :
    readChar (quotedChar q c ++ r) = some (c, r) := by
  unfold quotedChar
  split
  · rename_i hc
    have hc : c = '\'' ∨ c = '"' ∨ c = '\\' := by grind
    rcases hc with rfl | rfl | rfl <;> rfl
  · rename_i hc
    have hback : c ≠ '\\' := by grind
    split
    · rename_i e he
      unfold shortEscape? at he
      grind [readChar, readEscape]
    · split
      · exact if_neg hback
      · exact readChar_codeEscape c r

theorem quotedChar_append_inj (hq : q = '\'' ∨ q = '"') {c d : Char} {r s : List Char}
    (h : quotedChar q c ++ r = quotedChar q d ++ s) : c = d ∧ r = s := by
  have hread := congrArg readChar h
  rw [readChar_quotedChar hq, readChar_quotedChar hq] at hread
  exact Prod.mk.inj (Option.some.inj hread)

theorem codeEscape_eq (c : Char) : ∃ e cs, codeEscape c = '\\' :: e :: cs := by
  unfold codeEscape
  simp only
  split
  · exact ⟨_, _, rfl⟩
  · split
    · exact ⟨_, _, rfl⟩
    · exact ⟨_, _, rfl⟩

/-- **A character is shown as itself or after a backslash.** -/
theorem quotedChar_cases (q c : Char) : (quotedChar q c = [c] ∧ c ≠ q ∧ c ≠ '\\' ∧ isPrintable c = true) ∨
    ∃ e cs, quotedChar q c = '\\' :: e :: cs := by
  unfold quotedChar
  split
  · exact .inr ⟨c, [], rfl⟩
  · rename_i hc
    rw [Bool.or_eq_true, not_or, decide_eq_true_eq, decide_eq_true_eq] at hc
    split
    · exact .inr ⟨_, [], rfl⟩
    · split
      · rename_i hprint
        exact .inl ⟨rfl, hc.1, hc.2, hprint⟩
      · exact .inr (codeEscape_eq c)

/-- The quote ends the text, as no character is written with it first. -/
theorem quotedChar_append_ne (hq : q = '\'' ∨ q = '"') (c : Char) (r s : List Char) :
    quotedChar q c ++ r ≠ q :: s := by
  intro h
  rcases quotedChar_cases q c with ⟨hc, hne, -⟩ | ⟨e, cs, hc⟩
  · rw [hc] at h
    exact hne (List.cons.inj h).1
  · rw [hc] at h
    rcases hq with rfl | rfl
    · exact absurd (List.cons.inj h).1 (by decide)
    · exact absurd (List.cons.inj h).1 (by decide)

theorem quoteFor_eq (cs : List Char) : quoteFor cs = '\'' ∨ quoteFor cs = '"' := by
  unfold quoteFor
  split
  · exact .inr rfl
  · exact .inl rfl

theorem quotedBody_append_inj (hq : q = '\'' ∨ q = '"') {cs ds r s : List Char}
    (h : cs.flatMap (quotedChar q) ++ q :: r = ds.flatMap (quotedChar q) ++ q :: s) : cs = ds ∧ r = s := by
  induction cs generalizing ds with
  | nil =>
    cases ds with
    | nil => exact ⟨rfl, (List.cons.inj h).2⟩
    | cons d ds =>
      rw [List.flatMap_cons, List.append_assoc] at h
      exact absurd h.symm (quotedChar_append_ne hq d _ _)
  | cons c cs ih =>
    rw [List.flatMap_cons, List.append_assoc] at h
    cases ds with
    | nil => exact absurd h (quotedChar_append_ne hq c _ _)
    | cons d ds =>
      rw [List.flatMap_cons, List.append_assoc] at h
      obtain ⟨rfl, hrest⟩ := quotedChar_append_inj hq h
      obtain ⟨rfl, rfl⟩ := ih hrest
      exact ⟨rfl, rfl⟩

/-- **A text between quotes ends by itself**, whatever follows it. -/
theorem quoted_append_inj {cs ds r s : List Char} (h : quoted cs ++ r = quoted ds ++ s) : cs = ds ∧ r = s := by
  unfold quoted at h
  simp only [List.cons_append, List.append_assoc, List.nil_append] at h
  obtain ⟨hquote, hbody⟩ := List.cons.inj h
  rw [← hquote] at hbody
  exact quotedBody_append_inj (quoteFor_eq cs) hbody

end Text

/-- Several texts, separated by a comma and a blank. -/
def joined (texts : List (List Char)) : List Char :=
  (texts.flatMap fun cs => ',' :: ' ' :: cs).drop 2

theorem joined_cons (cs : List Char) (texts : List (List Char)) :
    joined (cs :: texts) = cs ++ texts.flatMap fun cs => ',' :: ' ' :: cs := rfl

namespace Datum

/-- The characters that go on with a datum: they make its name longer, or open its fields. -/
def goesOn (c : Char) : Bool :=
  isNameRest c || c == '('

theorem avoids_isNameRest {cs : List Char} (h : Avoids goesOn cs) : Avoids isNameRest cs :=
  h.mono fun _ hc => (Bool.or_eq_false_iff.1 hc).1

/-- Lists of data, as `joined`. -/
theorem quotedItems_eq (items : List Datum) : quotedItems items = joined (items.map quotedChars) := by
  induction items with
  | nil => rw [quotedItems]; rfl
  | cons d rest ih =>
    cases rest with
    | nil => rw [quotedItems, List.map_cons, joined_cons, List.map_nil, List.flatMap_nil, List.append_nil]
    | cons e rest =>
      rw [quotedItems, ih]
      rfl

/-- The text of a field. -/
def fieldChars (f : String × Datum) : List Char :=
  f.1.toList ++ '=' :: f.2.quotedChars

theorem quotedFields_eq (fields : List (String × Datum)) :
    quotedFields fields = joined (fields.map fieldChars) := by
  induction fields with
  | nil => rw [quotedFields]; rfl
  | cons f rest ih =>
    obtain ⟨name, d⟩ := f
    cases rest with
    | nil =>
      rw [quotedFields, List.map_cons, joined_cons, List.map_nil, List.flatMap_nil, List.append_nil]
      rfl
    | cons g rest =>
      rw [quotedFields, ih]
      exact (List.append_assoc name.toList ('=' :: d.quotedChars) _).symm

/-- There are no flags and numbers, and records and fields have names. -/
inductive Worded : Datum → Prop where
  | null : Worded .null
  | text (s : String) : Worded (.text s)
  | list {items : List Datum} (hitems : ∀ d ∈ items, Worded d) : Worded (.list items)
  | record {kind : String} {fields : List (String × Datum)} (hkind : kind.toList.all isNameRest = true)
    (hnames : ∀ f ∈ fields, f.1.toList.all isNameRest = true) (hvalues : ∀ f ∈ fields, Worded f.2) :
    Worded (.record kind fields)

theorem Worded.ofFields (kind : String) (names : List String) (values : List Datum)
    (hnames : (kind :: names).all (fun n => n.toList.all isNameRest) = true) (hvalues : ∀ d ∈ values, d.Worded) :
    (Datum.record kind (names.zip values)).Worded := by
  rw [List.all_cons, Bool.and_eq_true, List.all_eq_true (l := names)] at hnames
  exact .record hnames.1 (fun f hf => hnames.2 f.1 (List.of_mem_zip hf).1)
    fun f hf => hvalues f.2 (List.of_mem_zip hf).2

/-- **A name ends where no character of a name follows.** -/
theorem name_append_inj {m n : String} {r s : List Char} (hm : m.toList.all isNameRest = true)
    (hn : n.toList.all isNameRest = true) (hr : Avoids isNameRest r) (hs : Avoids isNameRest s)
    (h : m.toList ++ r = n.toList ++ s) : m = n ∧ r = s := by
  have hread := congrArg (List.takeWhile isNameRest) h
  rw [List.takeWhile_append_of_pos (List.all_eq_true.1 hm), List.takeWhile_append_of_pos (List.all_eq_true.1 hn),
    hr.takeWhile, hs.takeWhile, List.append_nil, List.append_nil] at hread
  rw [hread, List.append_cancel_left_eq] at h
  exact ⟨String.toList_inj.1 hread, h⟩

/-- A name without fields is not one with fields. -/
theorem name_append_ne_open {m n : String} {r : List Char} (hm : m.toList.all isNameRest = true)
    (hn : n.toList.all isNameRest = true) (hr : Avoids goesOn r) (s : List Char) :
    m.toList ++ r ≠ n.toList ++ '(' :: s := by
  intro h
  obtain ⟨-, hrest⟩ := name_append_inj hm hn (avoids_isNameRest hr) (avoids_cons (by decide) s) h
  rw [hrest] at hr
  exact absurd (hr '(' rfl) (by decide)

section Joined

variable {α : Type} {f : α → List Char} {close : Char} {r s : List Char}

theorem avoids_rest (hclose : goesOn close = false) (as : List α) (r : List Char) :
    Avoids goesOn ((as.map f).flatMap (fun cs => ',' :: ' ' :: cs) ++ close :: r) := by
  cases as with
  | nil => exact avoids_cons hclose r
  | cons a as => exact avoids_cons (by decide) _

/-- Texts that end by themselves, one after the other. -/
theorem rest_append_inj (hclose : goesOn close = false) (hcomma : close ≠ ',') {as bs : List α}
    (hinj : ∀ a ∈ as, ∀ b ∈ bs, ∀ r s, Avoids goesOn r → Avoids goesOn s → f a ++ r = f b ++ s → a = b ∧ r = s)
    (h : (as.map f).flatMap (fun cs => ',' :: ' ' :: cs) ++ close :: r =
      (bs.map f).flatMap (fun cs => ',' :: ' ' :: cs) ++ close :: s) : as = bs ∧ r = s := by
  induction as generalizing bs with
  | nil =>
    cases bs with
    | nil => exact ⟨rfl, (List.cons.inj h).2⟩
    | cons b bs => exact absurd (List.cons.inj h).1 hcomma
  | cons a as ih =>
    cases bs with
    | nil => exact absurd (List.cons.inj h).1.symm hcomma
    | cons b bs =>
      simp only [List.map_cons, List.flatMap_cons, List.cons_append, List.append_assoc, List.cons.injEq,
        true_and] at h
      obtain ⟨rfl, hrest⟩ := hinj a List.mem_cons_self b List.mem_cons_self _ _ (avoids_rest hclose as r)
        (avoids_rest hclose bs s) h
      obtain ⟨rfl, rfl⟩ := ih (fun a ha b hb => hinj a (List.mem_cons_of_mem _ ha) b (List.mem_cons_of_mem _ hb)) hrest
      exact ⟨rfl, rfl⟩

/-- **A sequence of texts that end by themselves does so too.** -/
theorem joined_append_inj (hclose : goesOn close = false) (hcomma : close ≠ ',') {as bs : List α}
    (hinj : ∀ a ∈ as, ∀ b ∈ bs, ∀ r s, Avoids goesOn r → Avoids goesOn s → f a ++ r = f b ++ s → a = b ∧ r = s)
    (hhead : ∀ a ∈ as ++ bs, ∀ r s, f a ++ r ≠ close :: s)
    (h : joined (as.map f) ++ close :: r = joined (bs.map f) ++ close :: s) : as = bs ∧ r = s := by
  cases as with
  | nil =>
    cases bs with
    | nil => exact ⟨rfl, (List.cons.inj h).2⟩
    | cons b bs =>
      rw [List.map_cons, joined_cons, List.append_assoc] at h
      exact absurd h.symm (hhead b List.mem_cons_self _ _)
  | cons a as =>
    cases bs with
    | nil =>
      rw [List.map_cons, joined_cons, List.append_assoc] at h
      exact absurd h (hhead a List.mem_cons_self _ _)
    | cons b bs =>
      -- with one more comma in front all texts are written alike
      refine rest_append_inj hclose hcomma hinj ?_
      have hfront := congrArg (fun cs => ',' :: ' ' :: cs) h
      exact hfront

end Joined

theorem fieldChars_append_inj {f g : String × Datum} {r s : List Char} (hf : f.1.toList.all isNameRest = true)
    (hg : g.1.toList.all isNameRest = true)
    (hvalue : f.2.quotedChars ++ r = g.2.quotedChars ++ s → f.2 = g.2 ∧ r = s)
    (h : fieldChars f ++ r = fieldChars g ++ s) : f = g ∧ r = s := by
  unfold fieldChars at h
  rw [List.append_assoc, List.append_assoc] at h
  obtain ⟨hname, hrest⟩ := name_append_inj hf hg (avoids_cons (by decide) _) (avoids_cons (by decide) _) h
  obtain ⟨hd, hrs⟩ := hvalue (List.cons.inj hrest).2
  exact ⟨Prod.ext hname hd, hrs⟩

theorem fieldChars_append_ne {f : String × Datum} (hf : f.1.toList.all isNameRest = true) (r s : List Char) :
    fieldChars f ++ r ≠ ')' :: s := by
  intro h
  unfold fieldChars at h
  rw [List.append_assoc] at h
  obtain ⟨-, hrest⟩ := name_append_inj hf (by decide : "".toList.all isNameRest = true) (avoids_cons (by decide) _)
    (avoids_cons (by decide) s) h
  exact absurd (List.cons.inj hrest).1 (by decide)

/-- What a first character shows: a text, a list, the end of a list, or something with a name. -/
inductive Lead where
  | text
  | list
  | closing
  | name
  deriving DecidableEq

/-- What a character shows where a datum may begin. -/
def Lead.ofChar (c : Char) : Lead :=
  if c = '\'' ∨ c = '"' then .text else if c = '[' then .list else if c = ']' then .closing else .name

/-- What a datum begins with. -/
def lead : Datum → Lead
  | .text _ => .text
  | .list _ => .list
  | _ => .name

theorem Lead.ofChar_of_isNameRest {c : Char} (h : isNameRest c = true) : Lead.ofChar c = .name := by
  have hne : ∀ d, isNameRest d = false → c ≠ d := fun d hd hc => by rw [hc, hd] at h; cases h
  unfold Lead.ofChar
  rw [if_neg (not_or.2 ⟨hne _ rfl, hne _ rfl⟩), if_neg (hne _ rfl), if_neg (hne _ rfl)]

theorem Worded.head {d : Datum} (hd : d.Worded) (r : List Char) :
    ∃ c cs, d.quotedChars ++ r = c :: cs ∧ Lead.ofChar c = d.lead := by
  cases hd with
  | null => exact ⟨'N', _, rfl, rfl⟩
  | text s =>
    refine ⟨Text.quoteFor s.toList, _, by rw [quotedChars]; rfl, ?_⟩
    rcases Text.quoteFor_eq s.toList with h | h
    · rw [h]; rfl
    · rw [h]; rfl
  | list _ => exact ⟨'[', _, by rw [quotedChars]; rfl, rfl⟩
  | @record kind fields hkind _ _ =>
    rw [quotedChars]
    cases hchars : kind.toList with
    | nil => exact ⟨'(', _, rfl, rfl⟩
    | cons c cs =>
      rw [hchars] at hkind
      exact ⟨c, _, rfl, Lead.ofChar_of_isNameRest (List.all_eq_true.1 hkind c List.mem_cons_self)⟩

theorem Worded.lead_eq {d e : Datum} (hd : d.Worded) (he : e.Worded) {r s : List Char}
    (h : d.quotedChars ++ r = e.quotedChars ++ s) : d.lead = e.lead := by
  obtain ⟨c, cs, hc, hlead⟩ := hd.head r
  obtain ⟨c', cs', hc', hlead'⟩ := he.head s
  rw [hc, hc'] at h
  rw [← hlead, ← hlead', (List.cons.inj h).1]

theorem Worded.append_ne_closing {d : Datum} (hd : d.Worded) (r s : List Char) : d.quotedChars ++ r ≠ ']' :: s := by
  intro h
  obtain ⟨c, cs, hc, hlead⟩ := hd.head r
  rw [hc] at h
  have hclosing : Lead.ofChar ']' = .closing := by decide
  rw [(List.cons.inj h).1, hclosing] at hlead
  cases d <;> cases hlead

/-- **A datum ends by itself** where what follows does not go on with it. -/
theorem Worded.append_inj {d : Datum} (hd : d.Worded) : ∀ {e : Datum} {r s : List Char}, e.Worded →
    Avoids goesOn r → Avoids goesOn s → d.quotedChars ++ r = e.quotedChars ++ s → d = e ∧ r = s := by
  -- by induction on the datum; the first character tells which kind of datum the other one is
  induction hd with
  | null =>
    intro e r s he hr hs h
    have hlead := Worded.null.lead_eq he h
    cases he with
    | text _ => cases hlead
    | list _ => cases hlead
    | null => exact ⟨rfl, List.append_cancel_left h⟩
    | @record kind fields hkind hnames hvalues =>
      rw [quotedChars, quotedChars, List.append_assoc] at h
      exact absurd h (name_append_ne_open (by decide) hkind hr _)
  | text a =>
    intro e r s he hr hs h
    have hlead := (Worded.text a).lead_eq he h
    cases he with
    | null => cases hlead
    | list _ => cases hlead
    | record _ _ _ => cases hlead
    | text b =>
      rw [quotedChars, quotedChars] at h
      obtain ⟨hab, hrest⟩ := Text.quoted_append_inj h
      exact ⟨congrArg Datum.text (String.toList_inj.1 hab), hrest⟩
  | @list as has ih =>
    intro e r s he hr hs h
    have hlead := (Worded.list has).lead_eq he h
    cases he with
    | null => cases hlead
    | text _ => cases hlead
    | record _ _ _ => cases hlead
    | @list bs hbs =>
      rw [quotedChars, quotedChars, quotedItems_eq, quotedItems_eq] at h
      simp only [List.cons_append, List.append_assoc, List.nil_append, List.cons.injEq, true_and] at h
      have hitems : as = bs ∧ r = s := by
        refine joined_append_inj (by decide) (by decide) (fun a ha b hb r s hr hs h => ih a ha (hbs b hb) hr hs h)
          (fun a ha => ?_) h
        rcases List.mem_append.1 ha with ha | ha
        · exact (has a ha).append_ne_closing
        · exact (hbs a ha).append_ne_closing
      exact ⟨congrArg Datum.list hitems.1, hitems.2⟩
  | @record kind fields hkind hnames hvalues ih =>
    intro e r s he hr hs h
    have hlead := (Worded.record hkind hnames hvalues).lead_eq he h
    cases he with
    | text _ => cases hlead
    | list _ => cases hlead
    | null =>
      rw [quotedChars, quotedChars, List.append_assoc] at h
      exact absurd h.symm (name_append_ne_open (by decide) hkind hs _)
    | @record kind' fields' hkind' hnames' hvalues' =>
      rw [quotedChars, quotedChars, quotedFields_eq, quotedFields_eq] at h
      simp only [List.cons_append, List.append_assoc, List.nil_append] at h
      obtain ⟨rfl, hrest⟩ := name_append_inj hkind hkind' (avoids_cons (by decide) _) (avoids_cons (by decide) _) h
      have hfields : fields = fields' ∧ r = s := by
        refine joined_append_inj (by decide) (by decide) (fun f hf g hg r s hr hs h => ?_) (fun f hf => ?_)
          (List.cons.inj hrest).2
        · exact fieldChars_append_inj (hnames f hf) (hnames' g hg) (ih f hf (hvalues' g hg) hr hs) h
        · rcases List.mem_append.1 hf with hf | hf
          · exact fieldChars_append_ne (hnames f hf)
          · exact fieldChars_append_ne (hnames' f hf)
      rw [hfields.1]
      exact ⟨rfl, hfields.2⟩

end Datum

theorem Comparison.kind_injective : Function.Injective Comparison.kind := by
  have hread : ∀ c : Comparison, ofKind? c.kind = some c := fun c => by cases c <;> rfl
  exact fun a b h => Option.some.inj (by rw [← hread a, ← hread b, h])

namespace Expr

mutual

/-- No data stand at places of expressions and comparisons. -/
def Dataless : Expr → Prop
  | .text _ => True
  | .var _ => True
  | .sum left right => left.Dataless ∧ right.Dataless
  | .path left right => left.Dataless ∧ right.Dataless
  | .backtick _ => True
  | .call _ args => AllDataless args
  | .bareCall _ => True
  | .cond _ left right yes no => left.Dataless ∧ right.Dataless ∧ yes.Dataless ∧ no.Dataless
  | .looseCond _ _ _ => False
  | .stray _ => False

/-- No data stand at places of expressions and comparisons in a list. -/
def AllDataless : List Expr → Prop
  | [] => True
  | e :: rest => e.Dataless ∧ AllDataless rest

end

mutual

/-- **The data of an expression tell which one it is.** -/
theorem datum_inj : ∀ {a b : Expr}, a.Dataless → b.Dataless → a.datum = b.datum → a = b
  | .text _, b, _, hb, h => by cases b <;> simp_all [datum, Dataless]
  | .var _, b, _, hb, h => by cases b <;> simp_all [datum, Dataless]
  | .backtick _, b, _, hb, h => by cases b <;> simp_all [datum, Dataless]
  | .bareCall _, b, _, hb, h => by cases b <;> simp_all [datum, Dataless]
  | .sum l r, b, ha, hb, h => by
    cases b with
    | sum l' r' =>
      rw [Dataless] at ha hb
      simp only [datum, Datum.record.injEq, List.cons.injEq, Prod.mk.injEq, true_and, and_true] at h
      rw [datum_inj ha.1 hb.1 h.1, datum_inj ha.2 hb.2 h.2]
    | _ => simp_all [datum, Dataless]
  | .path l r, b, ha, hb, h => by
    cases b with
    | path l' r' =>
      rw [Dataless] at ha hb
      simp only [datum, Datum.record.injEq, List.cons.injEq, Prod.mk.injEq, true_and, and_true] at h
      rw [datum_inj ha.1 hb.1 h.1, datum_inj ha.2 hb.2 h.2]
    | _ => simp_all [datum, Dataless]
  | .call f as, b, ha, hb, h => by
    cases b with
    | call g bs =>
      rw [Dataless] at ha hb
      simp only [datum, Datum.record.injEq, Datum.text.injEq, Datum.list.injEq, List.cons.injEq, Prod.mk.injEq,
        true_and, and_true] at h
      rw [h.1, data_inj ha hb h.2]
    | _ => simp_all [datum, Dataless]
  | .cond o l r y n, b, ha, hb, h => by
    cases b with
    | cond o' l' r' y' n' =>
      rw [Dataless] at ha hb
      simp only [datum, testDatum, Datum.record.injEq, List.cons.injEq, Prod.mk.injEq, true_and, and_true] at h
      obtain ⟨⟨hop, hleft, hright⟩, hyes, hno⟩ := h
      rw [Comparison.kind_injective hop, datum_inj ha.1 hb.1 hleft, datum_inj ha.2.1 hb.2.1 hright,
        datum_inj ha.2.2.1 hb.2.2.1 hyes, datum_inj ha.2.2.2 hb.2.2.2 hno]
    | _ => simp_all [datum, Dataless]
  | .looseCond _ _ _, _, ha, _, _ => by
    rw [Dataless] at ha
    exact ha.elim
  | .stray _, _, ha, _, _ => by
    rw [Dataless] at ha
    exact ha.elim

/-- The same for lists. -/
theorem data_inj : ∀ {as bs : List Expr}, AllDataless as → AllDataless bs → data as = data bs → as = bs
  | [], bs, _, _, h => by cases bs <;> simp_all [data]
  | a :: as, bs, has, hbs, h => by
    cases bs with
    | nil => simp [data] at h
    | cons b bs =>
      rw [AllDataless] at has hbs
      rw [data, data, List.cons.injEq] at h
      rw [datum_inj has.1 hbs.1 h.1, data_inj has.2 hbs.2 h.2]

end

mutual

theorem worded_datum : ∀ {e : Expr}, e.Dataless → e.datum.Worded
  | .text s, _ => by
    rw [datum]
    exact .text s
  | .var name, _ => by
    rw [datum]
    exact .ofFields "Variable" ["name"] [.text name] (by decide) (by simpa using .text name)
  | .backtick command, _ => by
    rw [datum]
    exact .ofFields "Backtick" ["command"] [.text command] (by decide) (by simpa using .text command)
  | .bareCall name, _ => by
    rw [datum]
    exact .ofFields "Function" ["name", "arguments"] [.text name, .null] (by decide)
      (by simpa using ⟨.text name, .null⟩)
  | .sum l r, h => by
    rw [Dataless] at h
    rw [datum]
    exact .ofFields "Sum" ["sum_1", "sum_2"] [l.datum, r.datum] (by decide)
      (by simpa using ⟨worded_datum h.1, worded_datum h.2⟩)
  | .path l r, h => by
    rw [Dataless] at h
    rw [datum]
    exact .ofFields "Div" ["div_1", "div_2"] [l.datum, r.datum] (by decide)
      (by simpa using ⟨worded_datum h.1, worded_datum h.2⟩)
  | .call name args, h => by
    rw [Dataless] at h
    rw [datum]
    exact .ofFields "Function" ["name", "arguments"] [.text name, .list (data args)] (by decide)
      (by simpa using ⟨.text name, .list (worded_data h)⟩)
  | .cond op l r y n, h => by
    rw [Dataless] at h
    obtain ⟨hl, hr, hy, hn⟩ := h
    have hkind : (op.kind :: ["left", "right"]).all (fun n => n.toList.all isNameRest) = true := by
      cases op <;> decide
    have htest : (testDatum op l.datum r.datum).Worded :=
      .ofFields op.kind ["left", "right"] [l.datum, r.datum] hkind
        (by simpa using ⟨worded_datum hl, worded_datum hr⟩)
    rw [datum]
    exact .ofFields "Conditional" ["if_condition", "then", "else_then"] [testDatum op l.datum r.datum, y.datum, n.datum]
      (by decide) (by simpa using ⟨htest, worded_datum hy, worded_datum hn⟩)
  | .looseCond _ _ _, h => by
    rw [Dataless] at h
    exact h.elim
  | .stray _, h => by
    rw [Dataless] at h
    exact h.elim

theorem worded_data : ∀ {es : List Expr}, AllDataless es → ∀ d ∈ data es, d.Worded
  | [], _ => by
    rw [data]
    exact fun d hd => absurd hd List.not_mem_nil
  | e :: es, h => by
    rw [AllDataless] at h
    rw [data, List.forall_mem_cons]
    exact ⟨worded_datum h.1, worded_data h.2⟩

end

/-- **Expressions with the same text are the same.** -/
theorem quoted_datum_inj {a b : Expr} (ha : a.Dataless) (hb : b.Dataless) (h : a.datum.quoted = b.datum.quoted) :
    a = b := by
  have hchars : a.datum.quotedChars ++ [] = b.datum.quotedChars ++ [] := by
    rw [List.append_nil, List.append_nil]
    exact String.ofList_injective h
  obtain ⟨hdatum, -⟩ := (worded_datum ha).append_inj (worded_datum hb) (avoids_nil _) (avoids_nil _) hchars
  exact datum_inj ha hb hdatum

/-- The conditionals. -/
def isTest : Expr → Bool
  | .cond _ _ _ _ _ => true
  | _ => false

end Expr

/-- Two texts that are different and have the same short digest. -/
def Digest.Collide (a b : String) : Prop :=
  a ≠ b ∧ Digest.short a = Digest.short b

section Sharing

variable {e₁ e₂ : Expr} {u : Names}

theorem testName_eq {e : Expr} (h : e.isTest = true) : testName e = "if_" ++ Digest.short e.datum.quoted := by
  cases e with
  | cond op left right yes no =>
    unfold testName
    rw [Expr.datum]
    rfl
  | _ => cases h

/-- **Conditionals have the same name just if they are the same or their digests collide.** -/
theorem testName_eq_iff (h₁ : e₁.Dataless) (h₂ : e₂.Dataless) (ht₁ : e₁.isTest = true) (ht₂ : e₂.isTest = true) :
    testName e₁ = testName e₂ ↔ e₁ = e₂ ∨ Digest.Collide e₁.datum.quoted e₂.datum.quoted := by
  constructor
  · intro h
    rw [testName_eq ht₁, testName_eq ht₂, String.append_right_inj] at h
    by_cases htext : e₁.datum.quoted = e₂.datum.quoted
    · exact .inl (Expr.quoted_datum_inj h₁ h₂ htext)
    · exact .inr ⟨htext, h⟩
  · rintro (rfl | ⟨-, h⟩)
    · rfl
    · rw [testName_eq ht₁, testName_eq ht₂, h]

/-- Names that a settled table knows have the same shell name just if they are the same. -/
theorem shellName_eq_iff {n₁ n₂ : String} (hu : Settled u) (h₁ : Knows u n₁) (h₂ : Knows u n₂) :
    u.shellName n₁ = u.shellName n₂ ↔ n₁ = n₂ :=
  hu.eq_iff (hu.find?_shellName h₁) (hu.find?_shellName h₂)

/-- The words of conditionals are the only calls of their functions. -/
theorem isTest_of_wordOf {σ : String → String} {e : Expr} {n : String} (he : e.Dataless)
    (h : wordOf σ e = .ok (.test n)) : e.isTest = true ∧ n = σ (testName e) := by
  cases e with
  | cond op left right yes no =>
    rw [wordOf] at h
    cases h
    exact ⟨rfl, rfl⟩
  | text _ | var _ | backtick _ | bareCall _ | stray _ =>
    rw [wordOf] at h
    cases h
  | sum left right | path left right =>
    rw [wordOf] at h
    cases hl : wordOf σ left <;> cases hr : wordOf σ right <;> rw [hl, hr] at h <;> cases h
  | call f args =>
    rw [wordOf] at h
    cases hargs : wordsOf σ args <;> rw [hargs] at h <;> cases h
  | looseCond _ _ _ =>
    rw [Expr.Dataless] at he
    exact he.elim

theorem helperName?_eq {σ : String → String} {e : Expr} (h : e.isTest = true) :
    e.helperName? σ = some (σ (testName e)) := by
  cases e with
  | cond op left right yes no => rfl
  | _ => cases h

theorem namesIn_eq {e : Expr} (h : e.isTest = true) : namesIn e = [testName e] := by
  cases e with
  | cond op left right yes no => rw [namesIn]
  | _ => cases h

/-- The function that a conditional calls in a session is the one that has its name at the end. -/
theorem test_of_mem_replies {calls : List Call} {e : Expr} {n : String} (he : e.Dataless)
    (h : (.ofExpr e, .ok (.word (.test n))) ∈ replies calls .empty) :
    e.isTest = true ∧ n = (tableAfter calls .empty).shellName (testName e) ∧
      Knows (tableAfter calls .empty) (testName e) := by
  have hu : Settled (tableAfter calls .empty) := settled_empty.tableAfter calls
  have hby : (.ok (.word (.test n)) : Except Failure Reply) =
      Reply.word <$> wordOf (tableAfter calls .empty).shellName e := by
    rw [replies_eq hu calls .empty (.refl _)] at h
    obtain ⟨c, -, hc⟩ := List.mem_map.1 h
    obtain ⟨rfl, hc⟩ := Prod.mk.inj hc
    exact hc.symm
  have hword : wordOf (tableAfter calls .empty).shellName e = .ok (.test n) := by
    cases hw : wordOf (tableAfter calls .empty).shellName e with
    | error f => rw [hw] at hby; cases hby
    | ok w => rw [hw] at hby; cases hby; rfl
  obtain ⟨htest, hn⟩ := isTest_of_wordOf he hword
  refine ⟨htest, hn, knows_of_mem_replies calls .empty _ _ h _ ?_⟩
  rw [Call.names, namesIn_eq htest]
  exact List.mem_singleton_self _

end Sharing

/-- A fact about each member of a list, where the step for the member gives it. -/
theorem Shell.Takes.foldlM_each {α β : Type} {A : String → Prop} {f : β → α → Naming β} {l : List α}
    {K : α → Names → Prop} (h : ∀ a ∈ l, ∀ b, Takes A (f b a) fun u _ => K a u) (b : β) :
    Takes A (l.foldlM f b) fun u _ => ∀ a ∈ l, K a u := by
  induction l generalizing b with
  | nil => exact .pure fun _ a ha => absurd ha List.not_mem_nil
  | cons a l ih =>
    rw [List.foldlM_cons]
    refine (h a List.mem_cons_self b).bind fun b' => ?_
    refine (ih (fun a' ha' => h a' (List.mem_cons_of_mem a ha')) b').mono fun u _ hl ha => ?_
    exact List.forall_mem_cons.2 ⟨ha, hl⟩

namespace Helpers

theorem addExpr_knows_leaf {e : Expr} (hs : Helpers) (hnodes : e.openNodes = [e]) (htest : e.isTest = false) :
    Takes (fun _ => True) (hs.addExpr e) fun u _ => ∀ c ∈ e.openNodes, c.isTest = true → Knows u (testName c) := by
  refine (addExpr_takes e hs (List.Subset.refl _) fun _ _ _ _ => trivial).mono fun u _ _ c hc ht => ?_
  rw [hnodes, List.mem_singleton] at hc
  rw [hc, htest] at ht
  cases ht

/-- **The names of open conditionals are known once their functions are made.** -/
theorem addExpr_knows : ∀ (e : Expr) (hs : Helpers), Takes (fun _ => True) (hs.addExpr e)
    fun u _ => ∀ c ∈ e.openNodes, c.isTest = true → Knows u (testName c)
  | .sum left right, hs => by
    rw [addExpr, Expr.openNodes]
    refine (addExpr_knows left hs).bind fun hs' => (addExpr_knows right hs').mono fun u _ hr hl => ?_
    rw [List.forall_mem_cons, List.forall_mem_append]
    exact ⟨fun h => (by cases h), hl, hr⟩
  | .path left right, hs => by
    rw [addExpr, Expr.openNodes]
    refine (addExpr_knows left hs).bind fun hs' => (addExpr_knows right hs').mono fun u _ hr hl => ?_
    rw [List.forall_mem_cons, List.forall_mem_append]
    exact ⟨fun h => (by cases h), hl, hr⟩
  | .cond op left right yes no, hs => by
    rw [addExpr, Expr.openNodes]
    refine (addExpr_knows left hs).bind fun hs₁ => (addExpr_knows right hs₁).bind fun hs₂ => ?_
    refine (addExpr_knows yes hs₂).bind fun hs₃ => (addExpr_knows no hs₃).bind fun hs₄ => ?_
    refine (Takes.cleanName trivial).bind fun name => (evaluate_asks fun _ _ => trivial).bind fun l => ?_
    refine (evaluate_asks fun _ _ => trivial).bind fun r => (evaluate_asks fun _ _ => trivial).bind fun y => ?_
    refine (evaluate_asks fun _ _ => trivial).bind fun n => .pure fun u _ _ _ _ hname hno hyes hright hleft => ?_
    rw [List.forall_mem_cons, List.forall_mem_append, List.forall_mem_append, List.forall_mem_append]
    exact ⟨fun _ => ⟨name, hname⟩, ⟨⟨hleft, hright⟩, hyes⟩, hno⟩
  | .text _, hs => addExpr_knows_leaf hs (by rw [Expr.openNodes]) rfl
  | .var _, hs => addExpr_knows_leaf hs (by rw [Expr.openNodes]) rfl
  | .backtick _, hs => addExpr_knows_leaf hs (by rw [Expr.openNodes]) rfl
  | .call _ _, hs => addExpr_knows_leaf hs (by rw [Expr.openNodes]) rfl
  | .bareCall _, hs => addExpr_knows_leaf hs (by rw [Expr.openNodes]) rfl
  | .looseCond _ _ _, hs => addExpr_knows_leaf hs (by rw [Expr.openNodes]) rfl
  | .stray _, hs => addExpr_knows_leaf hs (by rw [Expr.openNodes]) rfl

theorem ofItems_knows (items : List Item) : Takes (fun _ => True) (ofItems items)
    fun u _ => ∀ c ∈ openExprNodes items, c.isTest = true → Knows u (testName c) := by
  have hplatforms : Takes (fun _ => True) ((items.filterMap fun i => detector? i.attributes).foldlM addBuiltin .empty)
      fun _ _ => True :=
    (Takes.foldlM (fun name _ hs => addBuiltin_takes (S := []) hs name) .empty).mono fun _ _ _ => trivial
  refine hplatforms.bind fun hs => ?_
  have hitems : Takes (fun _ => True) (items.foldlM (fun hs i => hs.addExprs i.declaration.exprs) hs)
      fun u _ => ∀ i ∈ items, ∀ e ∈ i.declaration.exprs, ∀ c ∈ e.openNodes, c.isTest = true → Knows u (testName c) := by
    refine .foldlM_each (fun i _ hs => ?_) hs
    exact .foldlM_each (fun e _ hs => addExpr_knows e hs) hs
  refine hitems.mono fun u _ hknown _ c hc ht => ?_
  obtain ⟨i, hi, hc⟩ := List.mem_flatMap.1 hc
  obtain ⟨e, he, hc⟩ := List.mem_flatMap.1 hc
  exact hknown i hi e he c hc ht

end Helpers

/-- **The functions of conditionals are unambiguous.** Expressions with the same text are the same, whatever
their texts and names are. So in every session two conditionals call the same function just if they are the same or
different texts of theirs have the same short digest; and just so the functions of conditionals in a program are
shared, with the names of any later table. -/
theorem test_names_unambiguous {e₁ e₂ : Expr} (h₁ : e₁.Dataless) (h₂ : e₂.Dataless) :
    (e₁.datum.quoted = e₂.datum.quoted → e₁ = e₂) ∧
    (∀ calls n₁ n₂, (.ofExpr e₁, .ok (.word (.test n₁))) ∈ replies calls .empty →
      (.ofExpr e₂, .ok (.word (.test n₂))) ∈ replies calls .empty →
        (n₁ = n₂ ↔ e₁ = e₂ ∨ Digest.Collide e₁.datum.quoted e₂.datum.quoted)) ∧
    ∀ items p, (Program.ofItems items).result .empty = .ok p →
      e₁ ∈ openExprNodes items → e₂ ∈ openExprNodes items → e₁.isTest = true → e₂.isTest = true →
        ∀ u, Settled u → Within ((Program.ofItems items).table .empty) u →
          (e₁.helperName? u.shellName = e₂.helperName? u.shellName ↔
            e₁ = e₂ ∨ Digest.Collide e₁.datum.quoted e₂.datum.quoted) := by
  refine ⟨Expr.quoted_datum_inj h₁ h₂, fun calls n₁ n₂ hr₁ hr₂ => ?_, fun items p hp hm₁ hm₂ ht₁ ht₂ u hu hw => ?_⟩
  · have hu : Settled (tableAfter calls .empty) := settled_empty.tableAfter calls
    obtain ⟨ht₁, rfl, hk₁⟩ := test_of_mem_replies h₁ hr₁
    obtain ⟨ht₂, rfl, hk₂⟩ := test_of_mem_replies h₂ hr₂
    exact (shellName_eq_iff hu hk₁ hk₂).trans (testName_eq_iff h₁ h₂ ht₁ ht₂)
  · have hprogram := Program.assembled_of_ofItems hp
    have hknown := (Helpers.ofItems_knows items).gives .empty u _ hu (hprogram.table ▸ hw) hprogram.helpers
    rw [helperName?_eq ht₁, helperName?_eq ht₂, Option.some.injEq,
      shellName_eq_iff hu (hknown e₁ hm₁ ht₁) (hknown e₂ hm₂ ht₂)]
    exact testName_eq_iff h₁ h₂ ht₁ ht₂

/-- Two conditionals whose texts would be the same if quotes inside texts were written as they are. -/
def quotesLeft : Expr :=
  .cond .equal (.text "a', right='b") (.text "c") (.var "x") (.bareCall "f")

def quotesRight : Expr :=
  .cond .equal (.text "a") (.text "b', right='c") (.var "x") (.bareCall "f")

theorem test_names_unambiguous_quotes :
    quotesLeft.Dataless ∧ quotesRight.Dataless ∧ quotesLeft.datum.quoted ≠ quotesRight.datum.quoted ∧
    ∃ n₁ n₂, (.ofExpr quotesLeft, .ok (.word (.test n₁))) ∈ replies [.ofExpr quotesLeft, .ofExpr quotesRight] .empty ∧
      (.ofExpr quotesRight, .ok (.word (.test n₂))) ∈ replies [.ofExpr quotesLeft, .ofExpr quotesRight] .empty ∧
      (n₁ = n₂ → Digest.Collide quotesLeft.datum.quoted quotesRight.datum.quoted) := by
  have hleft : quotesLeft.Dataless := ⟨trivial, trivial, trivial, trivial⟩
  have hright : quotesRight.Dataless := ⟨trivial, trivial, trivial, trivial⟩
  have hne : quotesLeft ≠ quotesRight := by decide
  obtain ⟨htext, hcalls, -⟩ := test_names_unambiguous hleft hright
  have hm₁ : (.ofExpr quotesLeft, .ok (.word (.test (Names.shellName .empty (testName quotesLeft))))) ∈
      replies [.ofExpr quotesLeft, .ofExpr quotesRight] .empty := List.mem_cons_self
  refine ⟨hleft, hright, fun h => hne (htext h), _, _, hm₁, List.mem_cons_of_mem _ List.mem_cons_self, fun h => ?_⟩
  exact ((hcalls _ _ _ hm₁ (List.mem_cons_of_mem _ List.mem_cons_self)).1 h).resolve_left hne

end Justfile
