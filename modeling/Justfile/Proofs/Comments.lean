import Justfile.Proofs.Clashes
import Justfile.Proofs.RoundTrip
import Justfile.Proofs.Termination

/-!
# Where comments end

The first character of a comment may be anything but an exclamation mark, so it may be the line feed of the
comment's own line. Then the comment goes on to the end of the next line, whatever that line declares.

* `UpToLineEnd cs v rest`: a text up to its first line end.
* `Commented cs s rest`: a text that starts with a comment. `comment_eq_done_iff`: this is what is read as one.
* `Commented.newline_mem_iff`: a comment has a line feed just if it starts with one.
* `commented_of_parse`: every comment of a justfile stands in its text.
* `first_item_of_commented`: after an empty comment the next line is not read, whatever it declares.
* `Script.comments_of_ofProgram`: the comments of a script are those of the justfile.
* `comment_lines`: which lines a comment takes, in a justfile and in its script.
-/

namespace Justfile

open Parsing Parsing.Parser Shell

namespace Parsing

variable {ω : Type}

theorem satisfy_ne_reads {c d : Char} (h : c ≠ d) (cs : List Char) :
    Reads (satisfy (· != d) : Parser ω Char) (c :: cs) c cs := by
  refine .satisfy ?_ cs
  exact bne_iff_ne.2 h

/-- What a repetition gives was read at a place of the text, or before. -/
theorem manyLoop_member {α : Type} {p : Parser ω α} {k : Nat} (hp : Advances k p) :
    ∀ n acc far c t as next far' t', manyLoop p n acc far c t = (.done as next far', t') → ∀ a ∈ as, a ∈ acc ∨
      ∃ place t₁ next₁ far₁ t₂, Ahead 0 c place ∧ p.run place t₁ = (.done a next₁ far₁, t₂) := by
  intro n
  induction n with
  | zero =>
    intro acc far c t as next far' t' h a ha
    cases h
    exact .inl (List.mem_reverse.1 ha)
  | succ n ih =>
    intro acc far c t as next far' t' h a ha
    rw [manyLoop] at h
    rcases hrun : p.run c t with ⟨o, t₁⟩
    rw [hrun] at h
    cases o with
    | done b c₁ far₁ =>
      rcases ih _ _ _ _ _ _ _ _ h a ha with hb | ⟨place, t₂, next₁, far₂, t₃, hplace, hplaced⟩
      · rcases List.mem_cons.1 hb with rfl | hb
        · exact .inr ⟨c, t, c₁, far₁, t₁, .refl c, hrun⟩
        · exact .inl hb
      · have hahead := (hp _ _ _ _ _ _ hrun).trans hplace
        exact .inr ⟨place, t₂, next₁, far₂, t₃, hahead.mono (Nat.zero_le _), hplaced⟩
    | failed far₁ =>
      cases h
      exact .inl (List.mem_reverse.1 ha)
    | rejected recipe => cases h

theorem many_member {α : Type} {p : Parser ω α} {k : Nat} (hp : Advances k p) {c next : Cursor} {t t' : ω} {far : Nat}
    {as : List α} (h : (many p).run c t = (.done as next far, t')) {a : α} (ha : a ∈ as) :
    ∃ place t₁ next₁ far₁ t₂, Ahead 0 c place ∧ p.run place t₁ = (.done a next₁ far₁, t₂) :=
  (manyLoop_member hp _ _ _ _ _ _ _ _ _ h a ha).resolve_left List.not_mem_nil

variable [Listener ω] {cs s v rest : List Char}

/-- A line ends where the text starts. -/
def AtLineEnd (cs : List Char) : Prop :=
  "\n".toList <+: cs ∨ "\r\n".toList <+: cs

/-- The text `cs` is `v` up to its first line end, with which `rest` starts. -/
inductive UpToLineEnd : List Char → List Char → List Char → Prop
  | stop {cs : List Char} (h : AtLineEnd cs) : UpToLineEnd cs [] cs
  | step {c : Char} {cs v rest : List Char} (h : ¬AtLineEnd (c :: cs)) (hcs : UpToLineEnd cs v rest) :
      UpToLineEnd (c :: cs) (c :: v) rest

namespace UpToLineEnd

theorem newline_notMem (h : UpToLineEnd cs v rest) : '\n' ∉ v := by
  induction h with
  | stop h => exact List.not_mem_nil
  | step h hcs ih =>
    rw [List.mem_cons, not_or]
    refine ⟨?_, ih⟩
    rintro rfl
    exact h (.inl (List.prefix_append ['\n'] _))

end UpToLineEnd

theorem newline_reads_of_atLineEnd (h : AtLineEnd cs) :
    ∃ w rest, Reads (newline : Parser ω String) cs w rest := by
  rcases h with ⟨rest, rfl⟩ | ⟨rest, rfl⟩
  · exact ⟨"\n", rest, newline_reads rest⟩
  · have hno : Refuses (word "\n" : Parser ω String) ("\r\n".toList ++ rest) := word_refuses "\n" rfl (by decide)
    exact ⟨"\r\n", rest, .traced (.orElse_right hno (.word "\r\n" rest))⟩

theorem newline_refuses_of_not_atLineEnd (h : ¬AtLineEnd cs) : Refuses (newline : Parser ω String) cs := by
  rw [AtLineEnd, not_or] at h
  exact .traced (.orElse (.word (after?_eq_none h.1)) (.word (after?_eq_none h.2)))

theorem UpToLineEnd.gathers (h : UpToLineEnd cs v rest) :
    Gathers (anyChar : Parser ω Char) newline cs v rest := by
  induction h with
  | stop h =>
    obtain ⟨w, rest, hread⟩ := newline_reads_of_atLineEnd (ω := ω) h
    exact .stop hread
  | step h hcs ih =>
    exact .step (newline_refuses_of_not_atLineEnd h) (.satisfy rfl _) (Nat.lt_succ_self _) ih

/-- Without a line end there is no comment. -/
theorem untilEnd_refuses_of_endless (h : ∀ v rest, ¬UpToLineEnd cs v rest) :
    Refuses (untilEnd anyChar newline 0 : Parser ω (List Char)) cs := by
  have hloop : ∀ n count acc pos (t : ω), ∃ far t',
      untilLoop (anyChar : Parser ω Char) newline 0 n count acc ⟨cs, pos⟩ t = (.failed far, t') := by
    -- every round reads one more character, and there is none after the last
    induction cs with
    | nil =>
      intro n count acc pos t
      cases n with
      | zero => exact ⟨_, _, rfl⟩
      | succ n =>
        obtain ⟨far, t', hrun⟩ := newline_refuses_of_not_atLineEnd (ω := ω) (fun hend => h [] [] (.stop hend)) pos t
        rw [untilLoop_succ, hrun]
        exact ⟨_, _, rfl⟩
    | cons c cs ih =>
      intro n count acc pos t
      have hno : ¬AtLineEnd (c :: cs) := fun hend => h [] _ (.stop hend)
      cases n with
      | zero => exact ⟨_, _, rfl⟩
      | succ n =>
        obtain ⟨far, t', hrun⟩ := newline_refuses_of_not_atLineEnd (ω := ω) hno pos t
        rw [untilLoop_succ, hrun]
        exact ih (fun v rest hcs => h (c :: v) rest (.step hno hcs)) n (count + 1) (c :: acc) (pos + 1) t'
  exact fun pos t => hloop _ _ _ pos t

/-- The text `cs` starts with the comment `s`, and `rest` follows it. Before the comment stands a number sign, with
blanks around it. The comment ends at the first line end after its first character. -/
inductive Commented : List Char → List Char → List Char → Prop
  | mk {lead gap cs v rest : List Char} {first : Char} (hlead : ∀ c ∈ lead, isSpace c = true)
      (hgap : ∀ c ∈ gap, isSpace c = true) (hspace : isSpace first = false) (hfirst : first ≠ '!')
      (hline : UpToLineEnd cs v rest) : Commented (lead ++ '#' :: (gap ++ first :: cs)) (first :: v) rest

/-- A comment has a line feed just if it starts with one. -/
theorem Commented.newline_mem_iff (h : Commented cs s rest) : '\n' ∈ s ↔ s.head? = some '\n' := by
  cases h with
  | mk hlead hgap hspace hfirst hline =>
    rw [List.mem_cons, List.head?_cons, Option.some.injEq, eq_comm]
    exact or_iff_left hline.newline_notMem

theorem dropWhile_append_cons {ok : Char → Bool} {lead : List Char} {c : Char} (hlead : ∀ c ∈ lead, ok c = true)
    (hc : ok c = false) (cs : List Char) : (lead ++ c :: cs).dropWhile ok = c :: cs := by
  rw [List.dropWhile_append_of_pos hlead, List.dropWhile_cons_of_neg (by rw [hc]; exact Bool.false_ne_true)]

theorem Commented.reads (h : Commented cs s rest) :
    Reads (comment : Parser ω Declaration) cs (.comment (String.ofList s)) rest := by
  cases h with
  | @mk lead gap cs v rest first hlead hgap hspace hfirst hline =>
    have hsign : Reads (spaced (word "#") : Parser ω String) (lead ++ '#' :: (gap ++ first :: cs)) "#" (first :: cs) :=
      (Reads.word "#" _).spaced (dropWhile_append_cons hlead rfl _) (dropWhile_append_cons hgap hspace _)
    exact .traced (hsign.bind ((satisfy_ne_reads hfirst cs).bind (hline.gathers.untilEnd.bind (.pure _ _))))

theorem comment_refuses_of_not_commented (h : ∀ s rest, ¬Commented cs s rest) :
    Refuses (comment : Parser ω Declaration) cs := by
  have hlead := List.takeWhile_append_dropWhile (p := isSpace) (l := cs)
  cases hsign : cs.dropWhile isSpace with
  | nil => exact comment_refuses (by rw [hsign]; exact avoids_nil _)
  | cons c after =>
    by_cases hc : c = '#'
    · subst hc
      have hread : Reads (spaced (word "#") : Parser ω String) cs "#" (after.dropWhile isSpace) :=
        (Reads.word "#" after).spaced hsign rfl
      refine .traced (.bind_right hread ?_)
      have hgap := List.takeWhile_append_dropWhile (p := isSpace) (l := after)
      cases hfirst : after.dropWhile isSpace with
      | nil => exact .bind fun pos t => ⟨pos, t, rfl⟩
      | cons first line =>
        have hspace : isSpace first = false := by
          have hhead := avoids_dropWhile isSpace after
          rw [hfirst] at hhead
          exact hhead first rfl
        by_cases hbang : first = '!'
        · subst hbang
          exact .bind fun pos t => ⟨pos, t, rfl⟩
        · refine .bind_right (satisfy_ne_reads hbang line) (.bind (untilEnd_refuses_of_endless ?_))
          intro v rest hline
          refine h (first :: v) rest ?_
          rw [← hlead, hsign, ← hgap, hfirst]
          exact .mk (fun c hc => List.mem_takeWhile_imp hc) (fun c hc => List.mem_takeWhile_imp hc) hspace hbang hline
    · exact comment_refuses (by rw [hsign]; exact avoids_of_ne hc _)

theorem commented_of_comment {c next : Cursor} {t t' : ω} {far : Nat} {d : Declaration}
    (h : (comment : Parser ω Declaration).run c t = (.done d next far, t')) :
    ∃ s, d = .comment (String.ofList s) ∧ Commented c.rest s next.rest := by
  by_cases hcommented : ∃ s rest, Commented c.rest s rest
  · obtain ⟨s, rest, hs⟩ := hcommented
    obtain ⟨pos, far', t₁, hrun⟩ := hs.reads (ω := ω) c.pos t
    have heq := h.symm.trans hrun
    cases heq
    exact ⟨s, rfl, hs⟩
  · obtain ⟨far', t₁, hrun⟩ := comment_refuses_of_not_commented (ω := ω)
      (fun s rest hs => hcommented ⟨s, rest, hs⟩) c.pos t
    have heq := h.symm.trans hrun
    cases heq

/-- **What is read as a comment**, wherever in the grammar and whoever listens. -/
theorem comment_eq_done_iff {c : Cursor} {t : ω} {w : String} {rest : List Char} :
    (∃ pos far t', (comment : Parser ω Declaration).run c t = (.done (.comment w) ⟨rest, pos⟩ far, t')) ↔
      Commented c.rest w.toList rest := by
  constructor
  · rintro ⟨pos, far, t', hrun⟩
    obtain ⟨s, hs, hcommented⟩ := commented_of_comment hrun
    cases hs
    rwa [String.toList_ofList]
  · intro h
    obtain ⟨pos, far, t', hrun⟩ := h.reads (ω := ω) c.pos t
    rw [String.ofList_toList] at hrun
    exact ⟨pos, far, t', hrun⟩

theorem commented_of_declaration {depth : Nat} {c next : Cursor} {t t' : ω} {far : Nat} {w : String}
    (h : (declaration depth : Parser ω Declaration).run c t = (.done (.comment w) next far, t')) :
    Commented c.rest w.toList next.rest := by
  cases declares_of_declaration h with
  | comment hrun => exact comment_eq_done_iff.1 ⟨next.pos, _, _, hrun⟩

theorem recipe_of_declaration {depth : Nat} {c next : Cursor} {t t' : ω} {far : Nat} {r : Recipe}
    (h : (declaration depth : Parser ω Declaration).run c t = (.done (.recipe r) next far, t')) :
    ∃ far', (recipe depth : Parser ω Recipe).run c t = (.done r next far', t') := by
  cases declares_of_declaration h with
  | recipe hrun => exact ⟨_, hrun⟩

/-- The comment of an item stands at a place of the text. -/
theorem commented_of_item {depth : Nat} {c next : Cursor} {t t' : ω} {far : Nat} {i : Item} {w : String}
    (h : (item depth : Parser ω Item).run c t = (.done i next far, t')) (hi : i.declaration = .comment w) :
    ∃ place, Ahead 0 c place ∧ Commented place.rest w.toList next.rest := by
  obtain ⟨t₁, h⟩ := tracedBy_eq_done h
  obtain ⟨names, c₁, far₁, t₂, _, hnames, h⟩ := bind_eq_done h
  obtain ⟨d, c₂, _, t₃, _, hdeclaration, h⟩ := bind_eq_done h
  cases h
  cases hi
  have hattributes : Advances 0 (optional (spread attributes) : Parser ω (Option (List String))) :=
    .of_alike (F := fun _ _ => False) fun n => .optional (.spread (.tracedBy (.map attributeRow_alike.many _)))
  exact ⟨c₁, hattributes _ _ _ _ _ _ hnames, commented_of_declaration hdeclaration⟩

end Parsing

variable {text : String} {items : List Item}

theorem file_eq_done {depth : Nat} {c next : Cursor} {far : Nat} {t' : Unit}
    (h : (file depth : Parser Unit (List Item)).run c () = (.done items next far, t')) : ∃ next far t',
    (many (item depth) : Parser Unit (List Item)).run c () = (.done items next far, t') := by
  unfold file at h
  obtain ⟨is, c₁, far₁, t₁, _, hitems, h⟩ := bind_eq_done h
  obtain ⟨_, c₂, _, t₂, _, -, h⟩ := bind_eq_done h
  obtain ⟨_, c₃, _, t₃, _, -, h⟩ := bind_eq_done h
  cases h
  exact ⟨c₁, far₁, t₁, hitems⟩

/-- The items of a justfile are repeated over its prepared text. -/
theorem items_of_parse (h : parse text = .ok items) : ∃ next far t',
    (many (item ((prepare text.toList).length + 1)) : Parser Unit (List Item)).run ⟨prepare text.toList, 0⟩ () =
      (.done items next far, t') := by
  obtain ⟨next, far, hrun⟩ := parse_eq_ok h
  exact file_eq_done hrun

/-- **Every comment of a justfile stands in its text.** -/
theorem commented_of_parse (h : parse text = .ok items) {i : Item} (hi : i ∈ items) {w : String}
    (hw : i.declaration = .comment w) :
    ∃ place rest, place <:+ prepare text.toList ∧ Commented place w.toList rest := by
  obtain ⟨next, far, t', hitems⟩ := items_of_parse h
  have hforward : Advances 1 (item ((prepare text.toList).length + 1) : Parser Unit Item) :=
    (repetitions Unit).item _
  obtain ⟨c, t₁, next₁, far₁, t₂, hc, hrun⟩ := many_member hforward hitems hi
  obtain ⟨place, hplace, hcommented⟩ := commented_of_item hrun hw
  exact ⟨place.rest, next₁.rest, hplace.suffix.trans hc.suffix, hcommented⟩

/-- **A number sign makes an item of its comment**, whatever is declared on the lines of the comment. -/
theorem Parsing.item_reads_comment {ω : Type} [Listener ω] (depth : Nat) {cs s rest : List Char}
    (h : Commented ('#' :: cs) s rest) :
    Reads (item depth : Parser ω Item) ('#' :: cs) ⟨[], .comment (String.ofList s)⟩ rest := by
  have hword : ∀ (w : String) (d : Char), w.toList.head? = some d → d ≠ '#' →
      Refuses (word w : Parser ω String) ('#' :: cs) := fun w d hw hd => word_refuses w hw hd
  have hname : Refuses (spaced name : Parser ω String) ('#' :: cs) :=
    .spaced (.traced (.map _ (.span (avoids_cons rfl _))))
  have hmute : Reads (optional (spaced (word "@")) : Parser ω (Option String)) ('#' :: cs) none ('#' :: cs) :=
    Refuses.optional (.spaced (hword _ _ rfl (by decide)))
  have hone : ∀ (n : String) (p : Parser ω SettingValue), Refuses (settingNamed n p) ('#' :: cs) :=
    fun n p => .bind (hword "set" 's' rfl (by decide))
  have hsetting : Refuses (setting : Parser ω Declaration) ('#' :: cs) := by
    unfold setting
    refine .traced (.bind ?_)
    iterate 9 refine (hone _ _).orElse ?_
    exact hone _ _
  -- no alternative before the one for comments begins with a number sign
  refine .traced ((attributes_reads (avoids_cons rfl _)).bind (.bind ?_ (.pure _ _)))
  refine .orElse_right (.map _ (.traced (.bind_right hmute (.bind hname)))) ?_
  refine .orElse_right (.traced (.bind (hword _ _ rfl (by decide)))) ?_
  refine .orElse_right (.map _ (.tracedBy (.bind hname))) ?_
  refine .orElse_right (.traced (.bind (hword _ _ rfl (by decide)))) ?_
  exact .orElse_right hsetting (.orElse_left h.reads)

/-- What a repetition has found stays in front. -/
theorem Parsing.manyLoop_prefix {ω α : Type} {p : Parser ω α} :
    ∀ n acc far c t as next far' t', manyLoop p n acc far c t = (.done as next far', t') → acc.reverse <+: as := by
  intro n
  induction n with
  | zero =>
    intro acc far c t as next far' t' h
    cases h
    exact List.prefix_rfl
  | succ n ih =>
    intro acc far c t as next far' t' h
    rw [manyLoop] at h
    rcases hrun : p.run c t with ⟨o, t₁⟩
    rw [hrun] at h
    cases o with
    | done b c₁ far₁ =>
      have hmore := ih _ _ _ _ _ _ _ _ h
      rw [List.reverse_cons] at hmore
      exact (List.prefix_append _ _).trans hmore
    | failed far₁ =>
      cases h
      exact List.prefix_rfl
    | rejected recipe => cases h

/-- A justfile that starts with a comment has it for its first item. -/
theorem first_item_of_commented (h : parse text = .ok items) {cs s rest : List Char}
    (htext : prepare text.toList = '#' :: cs) (hs : Commented ('#' :: cs) s rest) :
    items.head? = some ⟨[], .comment (String.ofList s)⟩ := by
  obtain ⟨next, far, t', hitems⟩ := items_of_parse h
  rw [htext] at hitems
  obtain ⟨pos, far₁, t₁, hrun⟩ := item_reads_comment (ω := Unit) (('#' :: cs).length + 1) hs 0 ()
  change manyLoop _ (cs.length + 1 + 1) [] 0 _ _ = _ at hitems
  rw [manyLoop, hrun] at hitems
  obtain ⟨more, rfl⟩ := manyLoop_prefix _ _ _ _ _ _ _ _ _ hitems
  rfl

/-- The comment that an item is. -/
def Item.comment? (i : Item) : Option String :=
  match i.declaration with
  | .comment s => some s
  | _ => none

/-- The comments of some items, in order. -/
def commentsIn (items : List Item) : List String :=
  items.filterMap Item.comment?

theorem mem_commentsIn {w : String} : w ∈ commentsIn items ↔ ∃ i ∈ items, i.declaration = .comment w := by
  unfold commentsIn
  rw [List.mem_filterMap]
  refine exists_congr fun i => and_congr_right fun _ => ?_
  obtain ⟨attributes, declaration⟩ := i
  cases declaration with
  | comment s => exact ⟨fun h => by cases h; rfl, fun h => by cases h; rfl⟩
  | _ => exact ⟨nofun, nofun⟩

/-- The comment that an entry is. -/
def Script.Entry.comment? : Script.Entry → Option String
  | .comment s => some s
  | _ => none

/-- The comments of a script, in order. -/
def Script.comments (s : Script) : List String :=
  s.entries.filterMap Entry.comment?

/-- A list of computations gives what each of them gives somewhere. -/
theorem Shell.Naming.mapM_eq_ok {α β : Type} {f : α → Naming β} {l : List α} {bs : List β} {t : Names}
    (h : (l.mapM f).result t = .ok bs) : List.Forall₂ (fun a b => ∃ t', (f a).result t' = .ok b) l bs := by
  induction l generalizing bs t with
  | nil =>
    cases h
    exact .nil
  | cons a l ih =>
    rw [List.mapM_cons] at h
    obtain ⟨b, hb, h, -⟩ := Naming.bind_eq_ok h
    obtain ⟨bs, hbs, h, -⟩ := Naming.bind_eq_ok h
    cases h
    exact .cons ⟨t, hb⟩ (ih hbs)

namespace Script

theorem comments_of_itemEntries {p : Program} {i : Item} {row : List Entry} {t : Names}
    (h : (itemEntries p i).result t = .ok row) : row.filterMap Entry.comment? = commentsIn [i] := by
  obtain ⟨attributes, declaration⟩ := i
  unfold itemEntries at h
  cases declaration with
  | recipe r =>
    obtain ⟨_, -, h, -⟩ := Naming.bind_eq_ok h
    cases h
    rfl
  | «alias» name target =>
    obtain ⟨_, -, h, -⟩ := Naming.bind_eq_ok h
    obtain ⟨_, -, h, -⟩ := Naming.bind_eq_ok h
    cases h
    rfl
  | _ =>
    cases h
    rfl

theorem comments_of_itemRows {p : Program} {items : List Item} {rows : List (List Entry)}
    (h : List.Forall₂ (fun i row => ∃ t, (itemEntries p i).result t = .ok row) items rows) :
    rows.flatten.filterMap Entry.comment? = commentsIn items := by
  induction h with
  | nil => rfl
  | cons hrow _ ih =>
    obtain ⟨t, hrow⟩ := hrow
    rw [List.flatten_cons, List.filterMap_append, ih, comments_of_itemEntries hrow]
    exact (List.filterMap_append ..).symm

/-- **The comments of a script are those of its program**, in order. -/
theorem comments_of_ofProgram {edition : Edition} {outfile justfile : String} {p : Program} {t : Names} {s : Script}
    (h : (ofProgram edition outfile justfile p).result t = .ok s) : s.comments = commentsIn p.items := by
  obtain ⟨rows, hrows, h, -⟩ := Naming.bind_eq_ok (assembled_of_ofProgram h).entries
  obtain ⟨dispatchers, hdispatchers, h, -⟩ := Naming.bind_eq_ok h
  have hentries : rows.flatten ++ dispatchers = s.entries := Except.ok.inj h
  have hnone : dispatchers.filterMap Entry.comment? = [] := by
    rw [List.filterMap_eq_nil_iff]
    intro d hd
    obtain ⟨x, -, t', hx⟩ := exists_left_of_mem (Naming.mapM_eq_ok hdispatchers) d hd
    obtain ⟨_, -, hx, -⟩ := Naming.bind_eq_ok hx
    obtain ⟨_, -, hx, -⟩ := Naming.bind_eq_ok hx
    cases hx
    rfl
  rw [comments, ← hentries, List.filterMap_append, comments_of_itemRows (Naming.mapM_eq_ok hrows), hnone,
    List.append_nil]

end Script

namespace Text

theorem rowsFrom_of_notMem {cs : List Char} (h : '\n' ∉ cs) (row : List Char) :
    rowsFrom row cs = [row.reverse ++ cs] := by
  induction cs generalizing row with
  | nil => rw [rowsFrom, List.append_nil]
  | cons c cs ih =>
    rw [List.mem_cons, not_or] at h
    rw [rowsFrom, if_neg (Ne.symm h.1), ih h.2, List.reverse_cons, List.append_assoc]
    rfl

theorem rowsFrom_append_newline {cs : List Char} (h : '\n' ∉ cs) (row ds : List Char) :
    rowsFrom row (cs ++ '\n' :: ds) = (row.reverse ++ cs) :: rowsFrom [] ds := by
  induction cs generalizing row with
  | nil => rw [List.nil_append, rowsFrom, if_pos rfl, List.append_nil]
  | cons c cs ih =>
    rw [List.mem_cons, not_or] at h
    rw [List.cons_append, rowsFrom, if_neg (Ne.symm h.1), ih h.2, List.reverse_cons, List.append_assoc]
    rfl

end Text

/-- The rows that a comment has in a script. -/
theorem rows_of_commented {cs rest : List Char} {w : String} (h : Commented cs w.toList rest) :
    Text.rowsString (Script.Entry.comment w).text =
      if '\n' ∈ w.toList then ["# ", String.ofList w.toList.tail] else ["# " ++ w] := by
  have htext : (Script.Entry.comment w).text.toList = ['#', ' '] ++ w.toList := String.toList_append
  unfold Text.rowsString Text.rows
  rw [htext]
  split
  · rename_i hmem
    rw [h.newline_mem_iff] at hmem
    generalize w.toList = s at h hmem
    cases h with
    | mk hlead hgap hspace hfirst hline =>
      cases hmem
      rw [Text.rowsFrom_append_newline (by decide), Text.rowsFrom_of_notMem hline.newline_notMem]
      rfl
  · rename_i hmem
    rw [Text.rowsFrom_of_notMem]
    · rw [List.map_singleton, List.reverse_nil, List.nil_append, ← htext, String.ofList_toList]
      rfl
    · rw [List.mem_append, not_or]
      exact ⟨by decide, hmem⟩

/-- **Which lines a comment takes.** A comment stands after a number sign and ends at the first line end after its first
character. That character may be the line feed of its own line, so a comment has a line feed just if only blanks
follow its number sign. Then the whole next line belongs to it and declares nothing. In the script such a comment has
two rows, the second of which is that line. -/
theorem comment_lines (text : String) (items : List Item) (hparse : parse text = .ok items) :
    (∀ (ω : Type) [Listener ω] (c : Cursor) (t : ω) (w : String) (rest : List Char),
      (∃ pos far t', (comment : Parser ω Declaration).run c t = (.done (.comment w) ⟨rest, pos⟩ far, t')) ↔
        Commented c.rest w.toList rest) ∧
    (∀ w ∈ commentsIn items, ∃ place rest, place <:+ prepare text.toList ∧ Commented place w.toList rest ∧
      ('\n' ∈ w.toList ↔ w.toList.head? = some '\n')) ∧
    (∀ gap v rest, prepare text.toList = '#' :: (gap ++ '\n' :: (v ++ rest)) → (∀ c ∈ gap, isSpace c = true) →
      UpToLineEnd (v ++ rest) v rest → items.head? = some ⟨[], .comment (String.ofList ('\n' :: v))⟩) ∧
    ∀ edition outfile script, (compile edition outfile text).script = .ok script →
      ∃ p s, (Program.ofItems items).result .empty = .ok p ∧
        (Script.ofProgram edition outfile text p).result ((Program.ofItems items).table .empty) = .ok s ∧
        s.text = script ∧ s.comments = commentsIn items ∧
        ∀ w ∈ s.comments, Text.rowsString (Script.Entry.comment w).text =
          if '\n' ∈ w.toList then ["# ", String.ofList w.toList.tail] else ["# " ++ w] := by
  have hstand : ∀ w ∈ commentsIn items,
      ∃ place rest, place <:+ prepare text.toList ∧ Commented place w.toList rest := by
    intro w hw
    obtain ⟨i, hi, hd⟩ := mem_commentsIn.1 hw
    exact commented_of_parse hparse hi hd
  refine ⟨fun ω _ c t w rest => comment_eq_done_iff, fun w hw => ?_, fun gap v rest htext hgap hline => ?_,
    fun edition outfile script hscript => ?_⟩
  · obtain ⟨place, rest, hplace, hw⟩ := hstand w hw
    exact ⟨place, rest, hplace, hw, hw.newline_mem_iff⟩
  · have hempty : Commented ([] ++ '#' :: (gap ++ '\n' :: (v ++ rest))) ('\n' :: v) rest :=
      .mk (fun c hc => absurd hc List.not_mem_nil) hgap rfl (by decide) hline
    exact first_item_of_commented hparse htext hempty
  · obtain ⟨p, s, hp, hs, htext, hmade⟩ := made_of_compile hparse hscript
    have hcomments : s.comments = commentsIn items := by
      rw [Script.comments_of_ofProgram hs, hmade.program.items]
    refine ⟨p, s, hp, hs, htext, hcomments, fun w hw => ?_⟩
    rw [hcomments] at hw
    obtain ⟨place, rest, -, hw⟩ := hstand w hw
    exact rows_of_commented hw

/-- An empty comment before an assignment: nothing is assigned, and the assignment stands in the script as it is. -/
theorem comment_lines_before_assignment :
    parse "#\nfoo := 'x'\n" = .ok [⟨[], .comment "\nfoo := 'x'"⟩] ∧
    ∃ script p, ∃ s : Script, (compile ⟨"2000-01-02", "unknown"⟩ "just.sh" "#\nfoo := 'x'\n").script = .ok script ∧
      (Program.ofItems [⟨[], .comment "\nfoo := 'x'"⟩]).result .empty = .ok p ∧ s.text = script ∧
      s.comments = ["\nfoo := 'x'"] ∧
      Text.rowsString (Script.Entry.comment "\nfoo := 'x'").text = ["# ", "foo := 'x'"] := by
  have hparse : parse "#\nfoo := 'x'\n" = .ok [⟨[], .comment "\nfoo := 'x'"⟩] := by decide +kernel
  obtain ⟨script, hscript⟩ := compile_succeeds isDate_sample hparse rfl (by decide +kernel) rfl
  obtain ⟨-, -, -, hmade⟩ := comment_lines _ _ hparse
  obtain ⟨p, s, hp, -, htext, hcomments, hrows⟩ := hmade _ _ _ hscript
  have hrow := hrows "\nfoo := 'x'" (by rw [hcomments]; exact List.mem_singleton_self _)
  exact ⟨hparse, script, p, s, hscript, hp, htext, hcomments, hrow.trans (by decide +kernel)⟩

end Justfile
