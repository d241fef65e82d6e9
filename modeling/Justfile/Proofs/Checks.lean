import Justfile.Proofs.Clashes
import Justfile.Proofs.Linking

/-!
# The checks of a justfile

Before a justfile gets a script it is checked in several passes: that no setting is given twice, that none asks
for a Windows shell, that the shell has arguments, and that no recipe is repeated. Between these passes the
functions behind expressions are looked up, which does not fail where all of them are known. What is reported is
the first check that fails.

* `SettingValue.Fits`: each setting has one kind of value. `parse_fits`: so it is in every justfile.
* `Settings.collect_eq_ok`, `Settings.collect_eq_error`: settings as a list with or without repetitions.
* `Program.collectRecipes_eq_error_iff`: the same for recipes.
* `Refused`: the four checks in their order. `refused_iff`: what a justfile is refused for.
-/

namespace Justfile

open Shell

/-- The settings of a justfile with their values, each as often as it is given. -/
def settingsIn (items : List Item) : List (String × SettingValue) :=
  items.filterMap fun i => match i.declaration with
    | .setting name value => some (name, value)
    | _ => none

/-- The settings that are on or off. -/
def switchNames : List String :=
  ["allow-duplicate-recipes", "dotenv-load", "export", "fallback", "ignore-comments", "positional-arguments",
    "windows-powershell"]

/-- Which kind of value each setting has. -/
def SettingValue.Fits (name : String) : SettingValue → Prop
  | .flag _ => name ∈ switchNames
  | .text _ => name = "tempdir"
  | .words _ => name = "shell" ∨ name = "windows-shell"
  | .missing => False

/-- A setting has its kind of value. -/
def Declaration.Fits (d : Declaration) : Prop :=
  ∀ name value, d = .setting name value → value.Fits name

namespace Parsing

open Justfile.Parsing.Parser

variable {ω : Type}

theorem word_eq (s : String) : Yields (word s : Parser ω String) (· = s) :=
  .map ((Yields.trivial _).mono fun _ _ => rfl)

theorem settingNamed_fits {n : String} {p : Parser ω SettingValue} (hp : Yields p fun v => v.Fits n) :
    Yields (settingNamed n p) Declaration.Fits := by
  refine .after _ fun _ => .after _ fun _ => (word_eq n).spaced.bind fun m hm => hp.spaced.bind fun v hv =>
    .pure fun name value heq => ?_
  cases heq
  rw [hm]
  exact hv

variable [Listener ω]

theorem setting_fits : Yields (setting : Parser ω Declaration) Declaration.Fits := by
  have hswitch : ∀ n ∈ switchNames, Yields (settingNamed n switchValue : Parser ω Declaration) Declaration.Fits :=
    fun n hn => settingNamed_fits (.map ((Yields.trivial _).mono fun _ _ => hn))
  have htext : Yields (settingNamed "tempdir" textValue : Parser ω Declaration) Declaration.Fits :=
    settingNamed_fits (.after _ fun _ => .map ((Yields.trivial _).mono fun _ _ => rfl))
  have hwords : ∀ n, n = "shell" ∨ n = "windows-shell" →
      Yields (settingNamed n wordsValue : Parser ω Declaration) Declaration.Fits :=
    fun n hn => settingNamed_fits (.after _ fun _ => .map ((Yields.trivial _).mono fun _ _ => hn))
  unfold setting
  refine .traced (Yields.bind ?_ fun _ h => .after _ fun _ => .pure h)
  exact (hswitch _ (by decide)).orElse <| (hswitch _ (by decide)).orElse <| (hswitch _ (by decide)).orElse <|
    (hswitch _ (by decide)).orElse <| (hswitch _ (by decide)).orElse <| (hswitch _ (by decide)).orElse <|
    (hswitch _ (by decide)).orElse <| htext.orElse <| (hwords _ (.inl rfl)).orElse (hwords _ (.inr rfl))

theorem declaration_fits (depth : Nat) : Yields (declaration depth : Parser ω Declaration) Declaration.Fits := by
  intro c t d next far t' h name value hd
  subst hd
  cases declares_of_declaration h with
  | setting hrun => exact setting_fits _ _ _ _ _ _ hrun name value rfl

theorem file_fits (depth : Nat) :
    Yields (file depth : Parser ω (List Item)) fun is => ∀ i ∈ is, i.declaration.Fits := by
  have hitem : Yields (item depth : Parser ω Item) fun i => i.declaration.Fits :=
    .traced (.after _ fun _ => (declaration_fits depth).bind fun _ h => .pure h)
  exact hitem.many.bind fun _ h => .after _ fun _ => .after _ fun _ => .pure h

end Parsing

variable {text : String} {items : List Item}

theorem mem_settingsIn {name : String} {value : SettingValue} :
    (name, value) ∈ settingsIn items ↔ ∃ i ∈ items, i.declaration = .setting name value := by
  constructor
  · intro h
    obtain ⟨i, hi, hd⟩ := List.mem_filterMap.1 h
    refine ⟨i, hi, ?_⟩
    cases hdecl : i.declaration with
    | setting name' value' =>
      rw [hdecl] at hd
      cases hd
      rfl
    | _ =>
      rw [hdecl] at hd
      cases hd
  · rintro ⟨i, hi, hd⟩
    exact List.mem_filterMap.2 ⟨i, hi, by rw [hd]⟩

/-- **Every setting of a justfile has its kind of value.** -/
theorem parse_fits (h : parse text = .ok items) : ∀ x ∈ settingsIn items, x.2.Fits x.1 := by
  obtain ⟨next, far, hrun⟩ := parse_eq_ok h
  have hitems : ∀ i ∈ items, i.declaration.Fits := Parsing.file_fits _ _ _ _ _ _ _ hrun
  intro x hx
  obtain ⟨i, hi, hd⟩ := mem_settingsIn.1 hx
  exact hitems i hi x.1 x.2 hd

theorem settingsIn_cons_of_ne {i : Item} (h : ∀ name value, i.declaration ≠ .setting name value) :
    settingsIn (i :: items) = settingsIn items := by
  refine List.filterMap_cons_none ?_
  cases hd : i.declaration with
  | setting name value => exact absurd hd (h name value)
  | _ => rfl

namespace Settings

/-- **Settings that are collected** are all different and new, and each has its value. -/
theorem collect_eq_ok {s s' : Settings} (h : s.collect items = .ok s') :
    ((settingsIn items).map (·.1)).Nodup ∧ (∀ x ∈ settingsIn items, s.contains x.1 = false) ∧
      ∀ n v, s'.find? n = some v ↔ s.find? n = some v ∨ (n, v) ∈ settingsIn items := by
  fun_induction Settings.collect s items with
  | case1 s =>
    cases h
    exact ⟨List.nodup_nil, fun x hx => absurd hx List.not_mem_nil,
      fun n v => ⟨.inl, fun hv => hv.resolve_right List.not_mem_nil⟩⟩
  | case2 => cases h
  | case3 s attributes name value rest hnew ih =>
    obtain ⟨hnodup, hfresh, hfind⟩ := ih h
    rw [Bool.not_eq_true] at hnew
    have hcons : settingsIn (⟨attributes, .setting name value⟩ :: rest) = (name, value) :: settingsIn rest := rfl
    have hother : ∀ x ∈ settingsIn rest, s.contains x.1 = false ∧ x.1 ≠ name := by
      intro x hx
      have hx := hfresh x hx
      rw [← Bool.not_eq_true, Table.contains_put, not_or, Bool.not_eq_true] at hx
      exact hx
    rw [hcons]
    refine ⟨List.nodup_cons.2 ⟨fun hmem => ?_, hnodup⟩, ?_, fun n v => ?_⟩
    · obtain ⟨x, hx, hname⟩ := List.mem_map.1 hmem
      exact (hother x hx).2 hname
    · rintro x (hx | ⟨_, hx⟩)
      · exact hnew
      · exact (hother x hx).1
    · rw [hfind, List.mem_cons, Prod.mk.injEq]
      by_cases hn : n = name
      · subst hn
        have hnone : s.find? n = none := by simpa [Table.contains] using hnew
        rw [Table.find?_put_self, hnone]
        simp [eq_comm]
      · rw [Table.find?_put_of_ne s value hn]
        simp [hn]
  | case4 s i rest hnot ih =>
    rw [settingsIn_cons_of_ne fun name value hd => ?_]
    · exact ih h
    · obtain ⟨attributes, declaration⟩ := i
      cases hd
      exact hnot attributes name value rfl

/-- **Settings that are not collected**: one is given again, after others that are all different. -/
theorem collect_eq_error {s : Settings} {f : Failure} (h : s.collect items = .error f) :
    ∃ before n v after, settingsIn items = before ++ (n, v) :: after ∧ f = .settingRepeated n ∧
      (s.contains n = true ∨ n ∈ before.map (·.1)) ∧ (before.map (·.1)).Nodup ∧
      ∀ x ∈ before, s.contains x.1 = false := by
  fun_induction Settings.collect s items with
  | case1 => cases h
  | case2 s attributes name value rest hold =>
    cases h
    exact ⟨[], name, value, settingsIn rest, rfl, rfl, .inl hold, List.nodup_nil,
      fun x hx => absurd hx List.not_mem_nil⟩
  | case3 s attributes name value rest hnew ih =>
    obtain ⟨before, n, v, after, hsplit, hf, hagain, hnodup, hfresh⟩ := ih h
    rw [Bool.not_eq_true] at hnew
    have hother : ∀ x ∈ before, s.contains x.1 = false ∧ x.1 ≠ name := by
      intro x hx
      have hx := hfresh x hx
      rw [← Bool.not_eq_true, Table.contains_put, not_or, Bool.not_eq_true] at hx
      exact hx
    refine ⟨(name, value) :: before, n, v, after, congrArg _ hsplit, hf, ?_, List.nodup_cons.2 ⟨?_, hnodup⟩, ?_⟩
    · rw [List.map_cons, List.mem_cons]
      rw [Table.contains_put] at hagain
      exact hagain.elim (Or.imp id .inl) fun hn => .inr (.inr hn)
    · intro hmem
      obtain ⟨x, hx, hname⟩ := List.mem_map.1 hmem
      exact (hother x hx).2 hname
    · rintro x (hx | ⟨_, hx⟩)
      · exact hnew
      · exact (hother x hx).1
  | case4 s i rest hnot ih =>
    rw [settingsIn_cons_of_ne fun name value hd => ?_]
    · exact ih h
    · obtain ⟨attributes, declaration⟩ := i
      cases hd
      exact hnot attributes name value rfl

end Settings

/-- The attributes name a platform just if one of them is its name. -/
theorem Platform.ofAttributes_eq_nil_iff {attributes : List String} :
    ofAttributes attributes = [] ↔ ∀ platform : Platform, platform.name ∉ attributes := by
  have hmem : ∀ platform, platform ∈ ofAttributes attributes ↔ platform.name ∈ attributes := by
    intro platform
    unfold ofAttributes
    rw [List.mem_eraseDups, List.mem_filterMap]
    constructor
    · rintro ⟨a, ha, hname⟩
      have heq : a = platform.name := by
        unfold ofName? at hname
        split at hname <;> cases hname <;> rfl
      exact heq ▸ ha
    · exact fun ha => ⟨_, ha, ofName?_name platform⟩
  rw [List.eq_nil_iff_forall_not_mem]
  exact forall_congr' fun platform => not_congr (hmem platform)

/-- **Recipes that are not collected**: duplicates are not allowed, and a recipe without platforms has the name
of one before it. -/
theorem Program.collectRecipes_eq_error_iff {duplicates : Bool} {found : List String} :
    (∃ f, collectRecipes duplicates found items = .error f) ↔ duplicates = false ∧
      ∃ before attributes r after, recipesIn items = before ++ (attributes, r) :: after ∧
        Platform.ofAttributes attributes = [] ∧ (r.name ∈ found ∨ r.name ∈ before.map (·.2.name)) := by
  fun_induction collectRecipes duplicates found items with
  | case1 found =>
    constructor
    · rintro ⟨f, hf⟩
      cases hf
    · rintro ⟨-, before, attributes, r, after, hsplit, -⟩
      cases before <;> cases hsplit
  | case2 found attributes r rest hagain =>
    simp only [Bool.and_eq_true, List.contains_iff_mem, Bool.not_eq_true', List.isEmpty_iff] at hagain
    obtain ⟨⟨hfound, hduplicates⟩, hplatforms⟩ := hagain
    exact ⟨fun _ => ⟨hduplicates, [], attributes, r, recipesIn rest, rfl, hplatforms, .inl hfound⟩, fun _ => ⟨_, rfl⟩⟩
  | case3 found attributes r rest hnot ih =>
    rw [ih]
    refine and_congr_right fun hduplicates => ?_
    simp only [hduplicates, Bool.not_false, Bool.and_true, Bool.and_eq_true, List.contains_iff_mem,
      List.isEmpty_iff, not_and] at hnot
    have hcons : recipesIn (⟨attributes, .recipe r⟩ :: rest) = (attributes, r) :: recipesIn rest := rfl
    rw [hcons]
    constructor
    · rintro ⟨before, attributes', r', after, hsplit, hplatforms, hname⟩
      refine ⟨(attributes, r) :: before, attributes', r', after, by rw [hsplit, List.cons_append], hplatforms, ?_⟩
      rw [List.map_cons, List.mem_cons]
      rw [List.mem_append, List.mem_singleton] at hname
      exact or_assoc.1 hname
    · rintro ⟨before, attributes', r', after, hsplit, hplatforms, hname⟩
      cases before with
      | nil =>
        cases hsplit
        exact absurd hplatforms (hnot (hname.resolve_right List.not_mem_nil))
      | cons x before =>
        rw [List.cons_append, List.cons.injEq] at hsplit
        obtain ⟨rfl, hsplit⟩ := hsplit
        refine ⟨before, attributes', r', after, hsplit, hplatforms, ?_⟩
        rw [List.map_cons, List.mem_cons] at hname
        rw [List.mem_append, List.mem_singleton]
        exact or_assoc.2 hname
  | case4 found i rest hnot ih =>
    rw [recipesIn_cons_of_ne fun r hd => ?_]
    · exact ih
    · obtain ⟨attributes, declaration⟩ := i
      cases hd
      exact hnot attributes r rfl

section Conditions

variable (items)

/-- The setting `n` is given again, and it is the first one that is. -/
def SettingRepeats (n : String) : Prop :=
  ∃ before v after, settingsIn items = before ++ (n, v) :: after ∧ n ∈ before.map (·.1) ∧ (before.map (·.1)).Nodup

/-- A setting asks for a Windows shell. -/
def AsksWindows : Prop :=
  (∃ ss, ss ≠ [] ∧ ("windows-shell", .words ss) ∈ settingsIn items) ∨
    ("windows-powershell", .flag true) ∈ settingsIn items

/-- The shell is set without arguments. -/
def LoneShell : Prop :=
  ∃ shell, ("shell", .words [shell]) ∈ settingsIn items

/-- Duplicates are not allowed, and a recipe without platforms has the name of one before it. -/
def RecipeRepeats : Prop :=
  ("allow-duplicate-recipes", .flag true) ∉ settingsIn items ∧
    ∃ before attributes r after, recipesIn items = before ++ (attributes, r) :: after ∧
      (∀ platform : Platform, platform.name ∉ attributes) ∧ r.name ∈ before.map (·.2.name)

/-- The checks in their order: each is made where those before it pass. -/
inductive Refused : Failure → Prop where
  | setting {n : String} (h : SettingRepeats items n) : Refused (.settingRepeated n)
  | windows (hsettings : ¬ ∃ n, SettingRepeats items n) (h : AsksWindows items) : Refused .windowsUnsupported
  | shell (hsettings : ¬ ∃ n, SettingRepeats items n) (hwindows : ¬ AsksWindows items) (h : LoneShell items) :
    Refused .shellTooShort
  | recipe (hsettings : ¬ ∃ n, SettingRepeats items n) (hwindows : ¬ AsksWindows items)
    (hshell : ¬ LoneShell items) (h : RecipeRepeats items) : Refused .recipeRepeated

end Conditions

/-- The first setting that is given again is one. -/
theorem SettingRepeats.unique {n m : String} (h : SettingRepeats items n) (h' : SettingRepeats items m) :
    n = m := by
  -- if one came before the other, it would stand twice among the settings before that one
  have hfirst : ∀ {before as after after' : List (String × SettingValue)} {n m : String} {v w : SettingValue},
      n ∈ before.map (·.1) → ((before ++ as).map (·.1)).Nodup → (n, v) :: after = as ++ (m, w) :: after' →
        n = m := by
    intro before as after after' n m v w hn hnodup heq
    cases as with
    | nil => exact (Prod.mk.inj (List.cons.inj heq).1).1
    | cons x as =>
      obtain ⟨rfl, -⟩ := List.cons.inj heq
      rw [List.map_append, List.nodup_append] at hnodup
      exact absurd rfl (hnodup.2.2 n hn n List.mem_cons_self)
  obtain ⟨before, v, after, hsplit, hn, hnodup⟩ := h
  obtain ⟨before', w, after', hsplit', hm, hnodup'⟩ := h'
  rcases List.append_eq_append_iff.1 (hsplit.symm.trans hsplit') with ⟨as, rfl, heq⟩ | ⟨as, rfl, heq⟩
  · exact hfirst hn hnodup' heq
  · exact (hfirst hm hnodup heq).symm

theorem not_settingRepeats (h : ((settingsIn items).map (·.1)).Nodup) : ¬ ∃ n, SettingRepeats items n := by
  rintro ⟨n, before, v, after, hsplit, hn, -⟩
  rw [hsplit, List.map_append, List.nodup_append] at h
  exact absurd rfl (h.2.2 n hn n List.mem_cons_self)

/-- There is one reason for a refusal. -/
theorem Refused.unique {f g : Failure} (hf : Refused items f) (hg : Refused items g) : f = g := by
  cases hf with
  | setting h =>
    cases hg with
    | setting h' => rw [h.unique h']
    | windows hsettings _ | shell hsettings _ _ | recipe hsettings _ _ _ => exact absurd ⟨_, h⟩ hsettings
  | windows hsettings h =>
    cases hg with
    | setting h' => exact absurd ⟨_, h'⟩ hsettings
    | windows _ _ => rfl
    | shell _ hwindows _ | recipe _ hwindows _ _ => exact absurd h hwindows
  | shell hsettings hwindows h =>
    cases hg with
    | setting h' => exact absurd ⟨_, h'⟩ hsettings
    | windows _ h' => exact absurd h' hwindows
    | shell _ _ _ => rfl
    | recipe _ _ hshell _ => exact absurd h hshell
  | recipe hsettings hwindows hshell h =>
    cases hg with
    | setting h' => exact absurd ⟨_, h'⟩ hsettings
    | windows _ h' => exact absurd h' hwindows
    | shell _ _ h' => exact absurd h' hshell
    | recipe _ _ _ _ => rfl

/-- Something is refused just if one of the checks fails, whichever comes first. -/
theorem exists_refused_iff : (∃ f, Refused items f) ↔
    (∃ n, SettingRepeats items n) ∨ AsksWindows items ∨ LoneShell items ∨ RecipeRepeats items := by
  constructor
  · rintro ⟨f, hf⟩
    cases hf with
    | setting h => exact .inl ⟨_, h⟩
    | windows _ h => exact .inr (.inl h)
    | shell _ _ h => exact .inr (.inr (.inl h))
    | recipe _ _ _ h => exact .inr (.inr (.inr h))
  · intro h
    by_cases hsettings : ∃ n, SettingRepeats items n
    · obtain ⟨n, hn⟩ := hsettings
      exact ⟨_, .setting hn⟩
    by_cases hwindows : AsksWindows items
    · exact ⟨_, .windows hsettings hwindows⟩
    by_cases hshell : LoneShell items
    · exact ⟨_, .shell hsettings hwindows hshell⟩
    · have hrecipe := ((h.resolve_left hsettings).resolve_left hwindows).resolve_left hshell
      exact ⟨_, .recipe hsettings hwindows hshell hrecipe⟩

namespace Settings

variable {s : Settings}

section Collected

variable (hfind : ∀ n v, s.find? n = some v ↔ (n, v) ∈ settingsIn items)
  (hfits : ∀ x ∈ settingsIn items, x.2.Fits x.1)

include hfind

theorem isGiven_eq_true_iff {name : String} :
    s.isGiven name = true ↔ ∃ v, (name, v) ∈ settingsIn items ∧ v.isGiven = true := by
  unfold isGiven
  cases hv : s.find? name with
  | none =>
    refine ⟨fun h => (by cases h), fun ⟨v, hmem, _⟩ => ?_⟩
    rw [(hfind name v).2 hmem] at hv
    cases hv
  | some v =>
    refine ⟨fun h => ⟨v, (hfind name v).1 hv, h⟩, fun ⟨w, hmem, hw⟩ => ?_⟩
    rw [(hfind name w).2 hmem] at hv
    cases hv
    exact hw

include hfits

/-- A setting that is on or off is given just if it is on. -/
theorem isGiven_switch {name : String} (hname : name ∈ switchNames) :
    s.isGiven name = true ↔ (name, .flag true) ∈ settingsIn items := by
  rw [isGiven_eq_true_iff hfind]
  constructor
  · rintro ⟨v, hmem, hv⟩
    have hkind := hfits _ hmem
    cases v with
    | flag b =>
      obtain rfl : b = true := hv
      exact hmem
    | text _ =>
      obtain rfl : name = "tempdir" := hkind
      exact absurd hname (by decide)
    | words _ =>
      obtain rfl | rfl : name = "shell" ∨ name = "windows-shell" := hkind
      · exact absurd hname (by decide)
      · exact absurd hname (by decide)
    | missing => cases hkind
  · exact fun hmem => ⟨_, hmem, rfl⟩

theorem asksWindows_iff :
    (s.isGiven "windows-shell" || s.isGiven "windows-powershell") = true ↔ AsksWindows items := by
  have hpowershell := isGiven_switch hfind hfits (by decide : "windows-powershell" ∈ switchNames)
  rw [Bool.or_eq_true, hpowershell, isGiven_eq_true_iff hfind]
  refine or_congr_left ⟨fun ⟨v, hmem, hv⟩ => ?_, fun ⟨ss, hss, hmem⟩ => ⟨_, hmem, ?_⟩⟩
  · have hkind := hfits _ hmem
    cases v with
    | words ss => exact ⟨ss, by simpa [SettingValue.isGiven] using hv, hmem⟩
    | flag _ => exact absurd hkind (by decide : ¬ "windows-shell" ∈ switchNames)
    | text _ => exact absurd hkind (by decide : ¬ "windows-shell" = "tempdir")
    | missing => cases hkind
  · simpa [SettingValue.isGiven] using hss

omit hfits in
theorem loneShell_iff : (∃ shell, s.shell? = some (shell, [])) ↔ LoneShell items := by
  unfold shell? LoneShell
  refine exists_congr fun shell => ?_
  rw [← hfind]
  split
  · rename_i shell' args hv
    rw [hv]
    simp
  · rename_i hv
    exact ⟨fun h => (by cases h), fun h => absurd h (hv shell [])⟩

end Collected

/-- **The settings of a justfile**: refused by the first three checks, or passed by them. -/
theorem ofItems_spec (hfits : ∀ x ∈ settingsIn items, x.2.Fits x.1) :
    (∀ f, ofItems items = .error f → Refused items f) ∧
    ∀ s, ofItems items = .ok s → (¬ ∃ n, SettingRepeats items n) ∧ ¬ AsksWindows items ∧ ¬ LoneShell items ∧
      ∀ n v, s.find? n = some v ↔ (n, v) ∈ settingsIn items := by
  unfold ofItems
  cases hc : collect .empty items with
  | error g =>
    obtain ⟨before, n, v, after, hsplit, rfl, hagain, hnodup, -⟩ := collect_eq_error hc
    refine ⟨fun f hf => ?_, fun s hs => (by cases hs)⟩
    cases hf
    exact .setting ⟨before, v, after, hsplit, hagain.resolve_left (by intro h; cases h), hnodup⟩
  | ok s =>
    obtain ⟨hnodup, -, hfind⟩ := collect_eq_ok hc
    have hfind : ∀ n v, s.find? n = some v ↔ (n, v) ∈ settingsIn items := fun n v =>
      (hfind n v).trans (or_iff_right fun h => by cases h)
    have hsettings := not_settingRepeats hnodup
    have hwindows := asksWindows_iff hfind hfits
    have hshell := loneShell_iff hfind
    show (∀ f, (s.check >>= fun _ => pure s) = .error f → _) ∧ ∀ s', (s.check >>= fun _ => pure s) = .ok s' → _
    unfold check
    by_cases hw : (s.isGiven "windows-shell" || s.isGiven "windows-powershell") = true
    · rw [if_pos hw]
      refine ⟨fun f hf => ?_, fun s' hs => (by cases hs)⟩
      cases hf
      exact .windows hsettings (hwindows.1 hw)
    · rw [if_neg hw]
      have hw := fun h => hw (hwindows.2 h)
      split
      · rename_i shell hlone
        refine ⟨fun f hf => ?_, fun s' hs => (by cases hs)⟩
        cases hf
        exact .shell hsettings hw (hshell.1 ⟨shell, hlone⟩)
      · rename_i hlone
        refine ⟨fun f hf => (by cases hf), fun s' hs => ?_⟩
        cases hs
        exact ⟨hsettings, hw, fun h => (hshell.2 h).elim hlone, hfind⟩

end Settings

/-- **What a justfile is refused for.** If all functions that a justfile calls are known, it is refused just if a
setting is given twice, a setting asks for a Windows shell, the shell is set without arguments, or a recipe is
repeated. The first of these checks that fails is the one that is reported; of settings that are given twice, it
is the first, by its name. -/
theorem refused_iff (hparse : parse text = .ok items)
    (hknown : ∀ e ∈ exprNodes items, ∀ g, e.function? = some g → Builtin.find? g ≠ none) :
    ((∃ f, (Program.ofItems items).result .empty = .error f) ↔
      (∃ n, SettingRepeats items n) ∨ AsksWindows items ∨ LoneShell items ∨ RecipeRepeats items) ∧
    (∀ f, (Program.ofItems items).result .empty = .error f ↔ Refused items f) ∧
    (∀ n, (Failure.settingRepeated n).message = "Setting " ++ n ++ " has already been set") ∧
    Failure.recipeRepeated.message = "No duplicate recipes!" := by
  have hnamed := parse_named hparse
  have hfits := parse_fits hparse
  obtain ⟨hrefused, hpassed⟩ := Settings.ofItems_spec hfits
  have houtcome : (∃ f, (Program.ofItems items).result .empty = .error f ∧ Refused items f) ∨
      ∃ p, (Program.ofItems items).result .empty = .ok p ∧ ∀ f, ¬ Refused items f := by
    cases hs : Settings.ofItems items with
    | error g =>
      have hset : (Naming.ofExcept (Settings.ofItems items)).result .empty = .error g := hs
      exact .inl ⟨g, (Naming.bind_of_error _ hset).2, hrefused g hs⟩
    | ok s =>
      obtain ⟨hsettings, hwindows, hshell, hfind⟩ := hpassed s hs
      have hallowed := Settings.isGiven_switch hfind hfits (by decide : "allow-duplicate-recipes" ∈ switchNames)
      have hrecipes : (∃ f, Program.collectRecipes (s.isGiven "allow-duplicate-recipes") [] items = .error f) ↔
          RecipeRepeats items := by
        rw [Program.collectRecipes_eq_error_iff, ← Bool.not_eq_true, hallowed]
        simp only [List.not_mem_nil, false_or, Platform.ofAttributes_eq_nil_iff]
        rfl
      have hsteps := (Program.ofItems_result hs).2
      cases hh : (Helpers.ofItems items).result .empty with
      | error g =>
        -- the functions are known, so nothing fails between the settings and the recipes
        have hout := Helpers.ofItems_outcome hnamed (Helpers.settled_ofItems hnamed) (.refl _)
        rw [hh] at hout
        obtain ⟨name, -, -, rfl⟩ := hout
        obtain ⟨e, he, name', hname, hnone⟩ := (Helpers.ofItems_error_iff hnamed).1 ⟨name, hh⟩
        exact absurd hnone (hknown e (openExprNodes_subset he) name' hname)
      | ok helpers =>
        rw [hh] at hsteps
        simp only at hsteps
        split at hsteps
        · rename_i g hc
          obtain rfl := Program.collectRecipes_error hc
          exact .inl ⟨_, hsteps, .recipe hsettings hwindows hshell (hrecipes.1 ⟨_, hc⟩)⟩
        · rename_i recipes hc
          obtain ⟨p, hp, -⟩ := hsteps
          have hrecipe : ¬ RecipeRepeats items := fun h => by
            obtain ⟨f, hf⟩ := hrecipes.2 h
            rw [hc] at hf
            cases hf
          refine .inr ⟨p, hp, fun f hf => ?_⟩
          rcases exists_refused_iff.1 ⟨f, hf⟩ with h | h | h | h
          · exact hsettings h
          · exact hwindows h
          · exact hshell h
          · exact hrecipe h
  have hiff : ∀ f, (Program.ofItems items).result .empty = .error f ↔ Refused items f := by
    intro f
    rcases houtcome with ⟨g, hg, hgref⟩ | ⟨p, hp, hnone⟩
    · rw [hg]
      exact ⟨fun h => Except.error.inj h ▸ hgref, fun h => congrArg _ (hgref.unique h)⟩
    · rw [hp]
      exact ⟨fun h => (by cases h), fun h => absurd h (hnone f)⟩
  exact ⟨(exists_congr hiff).trans exists_refused_iff, hiff, fun n => rfl, rfl⟩

/-- A justfile that fails all checks but the first. -/
def windowsText : String :=
  "set shell := ['b']\nr:\nset windows-shell := ['a']\nr:\n"

def windowsItems : List Item :=
  [⟨[], .setting "shell" (.words ["b"])⟩, ⟨[], .recipe (idleRecipe "r")⟩,
    ⟨[], .setting "windows-shell" (.words ["a"])⟩, ⟨[], .recipe (idleRecipe "r")⟩]

/-- A recipe for all platforms after one for some, with a setting that forbids that. -/
def repeatedText : String :=
  "[linux]\nr:\nset allow-duplicate-recipes := false\nr:\n"

def repeatedItems : List Item :=
  [⟨["linux"], .recipe (idleRecipe "r")⟩, ⟨[], .setting "allow-duplicate-recipes" (.flag false)⟩,
    ⟨[], .recipe (idleRecipe "r")⟩]

theorem refused_iff_samples :
    parse windowsText = .ok windowsItems ∧ LoneShell windowsItems ∧ RecipeRepeats windowsItems ∧
      (Program.ofItems windowsItems).result .empty = .error .windowsUnsupported ∧
    parse repeatedText = .ok repeatedItems ∧
      (Program.ofItems repeatedItems).result .empty = .error .recipeRepeated := by
  have hwindows : parse windowsText = .ok windowsItems := by decide +kernel
  have hrepeated : parse repeatedText = .ok repeatedItems := by decide +kernel
  have hnames : ∀ x ∈ settingsIn repeatedItems, x.1 = "allow-duplicate-recipes" := by decide
  have hnone : ∀ platform : Platform, platform.name ∉ [] := fun _ => List.not_mem_nil
  refine ⟨hwindows, ⟨"b", by decide⟩, ⟨by decide, [([], idleRecipe "r")], [], idleRecipe "r", [], rfl, hnone, ?_⟩,
    ((refused_iff hwindows ?_).2.1 _).2 (.windows (not_settingRepeats (by decide)) (.inl ⟨["a"], ?_, ?_⟩)),
    hrepeated, ((refused_iff hrepeated ?_).2.1 _).2 (.recipe (not_settingRepeats (by decide)) ?_ ?_ ?_)⟩
  · decide
  · exact fun e he => absurd he List.not_mem_nil
  · decide
  · decide
  · exact fun e he => absurd he List.not_mem_nil
  · rintro (⟨ss, -, hmem⟩ | hmem)
    · exact absurd (hnames _ hmem) (by decide : "windows-shell" ≠ "allow-duplicate-recipes")
    · exact absurd (hnames _ hmem) (by decide)
  · rintro ⟨shell, hmem⟩
    exact absurd (hnames _ hmem) (by decide : "shell" ≠ "allow-duplicate-recipes")
  · exact ⟨by decide, [(["linux"], idleRecipe "r")], [], idleRecipe "r", [], rfl, hnone, by decide⟩

end Justfile
