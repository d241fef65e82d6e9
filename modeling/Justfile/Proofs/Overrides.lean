import Justfile.Proofs.ShellReader
import Justfile.Proofs.Order

/-!
# Overriding variables

A variable can be given a value on the command line. The function that does so makes two shell names from the
variable as it is typed, while the assignments of the script have the names that the table gives. The two agree
for a variable without dashes whose name no other has taken.

* `exportedBy`: what a function exports, read from its text. `exportedBy_setVariable`: what overriding exports.
* `Script.Assignment.run`, `Script.override`: how assignments are made, and made anew after an override.
* `assignAll_apply`: the value of a variable after all assignments.
* `Made.override_apply`: the value of a variable after an override.
* `Made.override_target_iff`, `Made.override_self_iff`: which variable an override is for.
* `overrides_exact`: all of this, for every justfile that is compiled.
-/

namespace Justfile

open Shell Shell.Names

namespace Shell

namespace Reader

/-- The argument that a reference by number is to. -/
def argument? (args : List String) (name : String) : Option String :=
  (((List.range args.length).map fun k => toString (k + 1)).zip args).lookup name

/-- The text of a piece in a function that is called with some arguments, if it depends on nothing else. -/
def Piece.fill? (args : List String) : Piece → Option (List Char)
  | .char c => some [c]
  | .value name _ => (argument? args name).map String.toList
  | .output _ _ => none

/-- The text of a word in a function that is called with some arguments. -/
def fill? (args : List String) (pieces : List Piece) : Option (List Char) :=
  (pieces.mapM (Piece.fill? args)).map List.flatten

/-- What a command exports: a name, and after the first equals sign its value. -/
def exported? (args : List String) : List Token → Option (String × String)
  | [.word command, .word argument] =>
    if fill? [] command = some "export".toList then
      (fill? args argument).bind fun cs =>
        if '=' ∈ cs then
          some (String.ofList (cs.takeWhile (· ≠ '=')), String.ofList ((cs.dropWhile (· ≠ '=')).drop 1))
        else none
    else none
  | _ => none

end Reader

open Reader in
/-- What a function exports when it is called with some arguments, line by line. -/
def exportedBy (function : String) (args : List String) : List (String × String) :=
  ((Text.rowsString function).map read).filterMap fun tokens? => tokens?.bind (exported? args)

section Exports

open Reader

variable {args : List String}

theorem fill?_append {ps qs : List Piece} {cs ds : List Char} (hp : fill? args ps = some cs)
    (hq : fill? args qs = some ds) : fill? args (ps ++ qs) = some (cs ++ ds) := by
  obtain ⟨css, hcss, rfl⟩ := Option.map_eq_some_iff.1 hp
  obtain ⟨dss, hdss, rfl⟩ := Option.map_eq_some_iff.1 hq
  rw [fill?, List.mapM_append, hcss, hdss]
  exact congrArg some List.flatten_append

theorem fill?_lettersOf (s : String) : fill? args (lettersOf s) = some s.toList := by
  unfold lettersOf
  induction s.toList with
  | nil => rfl
  | cons c cs ih =>
    have hone : fill? args [.char c] = some [c] := rfl
    exact fill?_append hone ih

/-- An export with its arguments filled in. -/
theorem exported?_of_fill? {argument : List Piece} {name value : String} (hname : '=' ∉ name.toList)
    (h : fill? args argument = some (name.toList ++ '=' :: value.toList)) :
    exported? args [.word (lettersOf "export"), .word argument] = some (name, value) := by
  have hall : ∀ c ∈ name.toList, decide (c ≠ '=') = true := by
    intro c hc
    exact decide_eq_true fun heq => hname (heq ▸ hc)
  have hbefore : (name.toList ++ '=' :: value.toList).takeWhile (· ≠ '=') = name.toList := by
    rw [List.takeWhile_append_of_pos hall]
    exact List.append_nil _
  have hafter : (name.toList ++ '=' :: value.toList).dropWhile (· ≠ '=') = '=' :: value.toList := by
    rw [List.dropWhile_append_of_pos hall]
    rfl
  rw [exported?, if_pos (fill?_lettersOf "export"), h, Option.bind_some,
    if_pos (List.mem_append_right _ List.mem_cons_self), hbefore, hafter, List.drop_one, List.tail_cons,
    String.ofList_toList, String.ofList_toList]

/-- The lines of the function that overrides a variable. Two of them are exports; the reader has no parentheses,
assignments or special parameters, which the others need. -/
theorem reads_setVariable : (Text.rowsString Script.setVariableFunction).map read =
    [none,
      some [.word (lettersOf "export"),
        .word (lettersOf "VAR_" ++ ([.value "1" false] ++ (lettersOf "=" ++ [.value "2" false])))],
      some [.word (lettersOf "export"),
        .word (lettersOf "OVERRIDE_VAR_" ++ ([.value "1" false] ++ lettersOf "=true"))],
      none, none, none] := by
  have hrows : Text.rowsString Script.setVariableFunction =
      ["set_var() \x7b", "  export \"VAR_${1}=${2}\"", "  export \"OVERRIDE_VAR_${1}=true\"",
        "  HAS_RUN_assign_variables=", "  assign_variables || exit \"$\x7b?\x7d\"", "\x7d"] := by
    decide +kernel
  have hvalue : read "  export \"VAR_${1}=${2}\"" = some [.word (lettersOf "export"),
      .word (lettersOf "VAR_" ++ ([.value "1" false] ++ (lettersOf "=" ++ [.value "2" false])))] :=
    rfl
  have hflag : read "  export \"OVERRIDE_VAR_${1}=true\"" = some [.word (lettersOf "export"),
      .word (lettersOf "OVERRIDE_VAR_" ++ ([.value "1" false] ++ lettersOf "=true"))] :=
    rfl
  rw [hrows, ← hvalue, ← hflag]
  rfl

theorem fill?_arguments (v x : String) :
    fill? [v, x] [.value "1" false] = some v.toList ∧ fill? [v, x] [.value "2" false] = some x.toList := by
  have hnumbers : (List.range [v, x].length).map (fun k => toString (k + 1)) = ["1", "2"] := by
    show (List.range 2).map (fun k => toString (k + 1)) = ["1", "2"]
    decide
  have hfirst : argument? [v, x] "1" = some v := by
    rw [argument?, hnumbers]
    rfl
  have hsecond : argument? [v, x] "2" = some x := by
    rw [argument?, hnumbers]
    rfl
  constructor
  · simp [fill?, Piece.fill?, hfirst]
  · simp [fill?, Piece.fill?, hsecond]

/-- **Overriding a variable exports two names that are made from the name as it is given.** -/
theorem exportedBy_setVariable {v : String} (hv : '=' ∉ v.toList) (x : String) :
    exportedBy Script.setVariableFunction [v, x] = [("VAR_" ++ v, x), ("OVERRIDE_VAR_" ++ v, "true")] := by
  obtain ⟨hfirst, hsecond⟩ := fill?_arguments v x
  have hname : ∀ kind : String, '=' ∉ kind.toList → '=' ∉ (kind ++ v).toList := by
    intro kind hkind
    rw [String.toList_append, List.mem_append, not_or]
    exact ⟨hkind, hv⟩
  have hvalue : exported? [v, x] [.word (lettersOf "export"), .word (lettersOf "VAR_" ++
      ([.value "1" false] ++ (lettersOf "=" ++ [.value "2" false])))] = some ("VAR_" ++ v, x) := by
    refine exported?_of_fill? (hname "VAR_" (by decide)) ?_
    rw [String.toList_append, List.append_assoc]
    exact fill?_append (fill?_lettersOf "VAR_") (fill?_append hfirst (fill?_append (fill?_lettersOf "=") hsecond))
  have hflag : exported? [v, x] [.word (lettersOf "export"), .word (lettersOf "OVERRIDE_VAR_" ++
      ([.value "1" false] ++ lettersOf "=true"))] = some ("OVERRIDE_VAR_" ++ v, "true") := by
    refine exported?_of_fill? (hname "OVERRIDE_VAR_" (by decide)) ?_
    rw [String.toList_append, List.append_assoc]
    exact fill?_append (fill?_lettersOf "OVERRIDE_VAR_") (fill?_append hfirst (fill?_lettersOf "=true"))
  rw [exportedBy, reads_setVariable]
  simp only [List.filterMap_cons, Option.bind_none, Option.bind_some, hvalue, hflag, List.filterMap_nil]

end Exports

/-- The values of shell variables. -/
abbrev Env := String → Option String

namespace Env

/-- Whether a variable has a value that is not empty. -/
def isSet (env : Env) (name : String) : Bool :=
  (env name).getD "" != ""

/-- The variables with more of them set, one after the other. A shell stops at what is no shell name; here it is a
variable that nothing reads. -/
def putAll (env : Env) (values : List (String × String)) : Env :=
  values.foldl (fun env x => Function.update env x.1 (some x.2)) env

end Env

end Shell

namespace Script

section Assignments

variable (value : Env → Word → String)

/-- The variable that keeps an assignment from being made, as `Assignment.text` tests it. -/
def Assignment.flag (a : Assignment) : String :=
  "OVERRIDE_" ++ a.name

/-- The variables after an assignment, where `value` gives the values of words. -/
def Assignment.run (env : Env) (a : Assignment) : Env :=
  if env.isSet a.flag then env else Function.update env a.name (some (value env a.value))

/-- The variables after all assignments. -/
def assignAll (env : Env) (as : List Assignment) : Env :=
  as.foldl (Assignment.run value) env

/-- The variables after the variable `v` is overridden: what is exported is set, and all assignments are made. -/
def override (s : Script) (env : Env) (v x : String) : Env :=
  assignAll value (env.putAll (exportedBy setVariableFunction [v, x])) s.assignments

variable {value} {env : Env} {as : List Assignment} {n : String}

theorem Assignment.run_of_ne {a : Assignment} (h : n ≠ a.name) : a.run value env n = env n := by
  unfold Assignment.run
  split
  · rfl
  · exact Function.update_of_ne h _ _

/-- Other variables stay as they are. -/
theorem assignAll_of_notMem (h : n ∉ as.map (·.name)) : assignAll value env as n = env n := by
  unfold assignAll
  induction as generalizing env with
  | nil => rfl
  | cons a as ih =>
    rw [List.map_cons, List.mem_cons, not_or] at h
    rw [List.foldl_cons, ih h.2, Assignment.run_of_ne h.1]

/-- **The value of a variable after all assignments.** It stays if the variable is overridden; else it is that of
the word, as it is after the assignments before. -/
theorem assignAll_apply {before after : List Assignment} {b : Assignment}
    (hnodup : ((before ++ b :: after).map (·.name)).Nodup) (hflag : b.flag ∉ before.map (·.name)) :
    assignAll value env (before ++ b :: after) b.name =
      if env.isSet b.flag then env b.name else some (value (assignAll value env before) b.value) := by
  rw [List.map_append, List.map_cons] at hnodup
  obtain ⟨-, hrest, hbefore⟩ := List.nodup_append.1 hnodup
  have hafter : b.name ∉ after.map (·.name) := (List.nodup_cons.1 hrest).1
  have hnew : b.name ∉ before.map (·.name) := fun hmem => hbefore _ hmem _ List.mem_cons_self rfl
  have hset : (assignAll value env before).isSet b.flag = env.isSet b.flag := by
    rw [Env.isSet, Env.isSet, assignAll_of_notMem hflag]
  have hsplit : assignAll value env (before ++ b :: after) =
      assignAll value (b.run value (assignAll value env before)) after := by
    rw [assignAll, assignAll, assignAll, List.foldl_append, List.foldl_cons]
  rw [hsplit, assignAll_of_notMem hafter, Assignment.run, hset]
  split
  · exact assignAll_of_notMem hnew
  · exact Function.update_self _ _ _

end Assignments

end Script

namespace Shell.Names

theorem length_dashless (name : String) : (dashless name).length = name.length := by
  rw [dashless, @String.length_ofList, List.length_map, String.length_toList]

/-- A name that has its own form has no dashes. -/
theorem Settled.dashless_eq {u : Names} (hu : Settled u) {n : String} (h : u.find? n = some n) :
    dashless n = n := by
  obtain ⟨k, hk⟩ := hu.eq_candidate h
  cases k with
  | zero => exact hk.symm
  | succ k =>
    -- a form with a number is longer than the name
    have hlength := congrArg String.length hk
    rw [candidate, String.length_append, String.length_append, length_dashless] at hlength
    have hone : "_".length = 1 := rfl
    omega

theorem dashless_eq_self {n : String} (h : '-' ∉ n.toList) : dashless n = n := by
  have hid : ∀ c ∈ n.toList, (if c = '-' then '_' else c) = id c := by
    intro c hc
    refine if_neg fun heq => h ?_
    rwa [heq] at hc
  rw [dashless, List.map_congr_left hid, List.map_id, String.ofList_toList]

/-- Nothing else has a form without underscores. -/
theorem eq_of_map_dash {cs ds : List Char} (hds : '_' ∉ ds)
    (h : cs.map (fun c => if c = '-' then '_' else c) = ds) : cs = ds := by
  have hid : ∀ c ∈ cs, (if c = '-' then '_' else c) = id c := by
    intro c hc
    refine if_neg fun heq => hds ?_
    rw [← h]
    exact List.mem_map.2 ⟨c, hc, if_pos heq⟩
  rw [List.map_congr_left hid, List.map_id] at h
  exact h

theorem not_isNameStart_of_isDigit {c : Char} (h : c.isDigit = true) : ¬ Parsing.isNameStart c = true := by
  have hdigit : 48 ≤ c.toNat ∧ c.toNat ≤ 57 := by
    simpa [Char.isDigit, UInt32.le_iff_toNat_le] using h
  intro hstart
  have hletter : ((65 ≤ c.toNat ∧ c.toNat ≤ 90) ∨ 97 ≤ c.toNat ∧ c.toNat ≤ 122) ∨ c = '_' := by
    simpa [Parsing.isNameStart, Char.isAlpha, Char.isUpper, Char.isLower, UInt32.le_iff_toNat_le] using hstart
  rcases hletter with hletter | rfl
  · omega
  · exact absurd hdigit (by decide)

/-- **What can take the form of a variable without underscores**: only the variable, and the same with a dash
after its kind. -/
theorem taker_of_variable {m v : String} {k : Nat} (hv : IsName v) (hplain : '_' ∉ v.toList)
    (h : "VAR_" ++ v = candidate (dashless m) k) : m = "VAR_" ++ v ∨ m = "VAR-" ++ v := by
  have hkind : ("VAR_" ++ v).toList = "VAR".toList ++ '_' :: v.toList := by
    rw [String.toList_append]
    rfl
  cases k with
  | zero =>
    -- the name is cut where the underscore comes from
    have hlist : m.toList.map (fun c => if c = '-' then '_' else c) = "VAR".toList ++ '_' :: v.toList := by
      rw [← hkind, h, candidate, dashless, String.toList_ofList]
    obtain ⟨kind, rest, hm, hleft, hright⟩ := List.map_eq_append_iff.1 hlist
    obtain ⟨c, tail, rfl, hc, htail⟩ := List.map_eq_cons_iff.1 hright
    rw [eq_of_map_dash (by decide) hleft, eq_of_map_dash hplain htail] at hm
    by_cases hdash : c = '-'
    · refine .inr (String.toList_injective ?_)
      rw [hm, hdash, String.toList_append]
      rfl
    · rw [if_neg hdash] at hc
      refine .inl (String.toList_injective ?_)
      rw [hm, hc, hkind]
  | succ k =>
    -- the number after the last underscore would be the variable, which does not begin with a digit
    have hlist : "VAR".toList ++ '_' :: v.toList = (dashless m).toList ++ '_' :: Nat.toDigits 10 (k + 2) := by
      rw [← hkind, h, candidate, String.toList_append, String.toList_append, List.append_assoc]
      exact congrArg _ (congrArg ('_' :: ·) Nat.toList_repr)
    have hdigits : ∀ c ∈ Nat.toDigits 10 (k + 2), c.isDigit = true :=
      fun c hc => Nat.isDigit_of_mem_toDigits (by decide) (by decide) hc
    have hnone : '_' ∉ Nat.toDigits 10 (k + 2) := fun hmem => absurd (hdigits _ hmem) (by decide)
    obtain ⟨c, cs, hs, hstart, -⟩ := hv
    have hdigit : c.isDigit = true := by
      refine hdigits c ?_
      rw [← (append_cons_inj_of_notMem hplain hnone hlist).2, hs]
      exact List.mem_cons_self
    exact absurd hstart (not_isNameStart_of_isDigit hdigit)

theorem not_internal_of_dash (v : String) : ¬ Internal ("VAR-" ++ v) := by
  generalize hm : "VAR-" ++ v = m
  intro h
  have hhead := congrArg (fun s : String => s.toList.take 4) hm
  cases h with
  | ofVariable name => simp [String.toList_append] at hhead
  | ofFunction name => simp [String.toList_append] at hhead
  | ofForce name => simp [String.toList_append] at hhead
  | ofHasRun name => simp [String.toList_append] at hhead
  | ofTest e => simp [testName, String.toList_append] at hhead

theorem dashless_variable_iff {v : String} : dashless ("VAR_" ++ v) = "VAR_" ++ v ↔ dashless v = v := by
  have hkind : dashless "VAR_" = "VAR_" := by decide
  rw [dashless_append, hkind, String.append_right_inj]

/-- A name with dashes is no shell name. -/
theorem not_isShellName_of_dashless_ne {n : String} (h : dashless n ≠ n) :
    Reader.isShellName n.toList = false := by
  by_contra hname
  have hall := List.all_eq_true.1 (Reader.isShellChar_of_isShellName (Bool.eq_true_of_not_eq_false hname)).2
  exact h (dashless_eq_self fun hmem => absurd (hall _ hmem) (by decide))

end Shell.Names

/-- What is declared has a name. -/
theorem isName_of_mem_variablesIn {text v : String} {items : List Item} (hparse : parse text = .ok items)
    (hv : v ∈ variablesIn items) : IsName v := by
  obtain ⟨⟨v', e⟩, hx, rfl⟩ := List.mem_map.1 (List.mem_eraseDups.1 hv)
  obtain ⟨i, hi, hd⟩ := List.mem_filterMap.1 hx
  have hshaped := (parse_shaped Parsing.grammatical_formed hparse i hi).2
  cases hdecl : i.declaration with
  | assignment name value | exported name value =>
    rw [hdecl] at hd hshaped
    cases hd
    exact hshaped.1
  | _ =>
    rw [hdecl] at hd
    cases hd

theorem equals_notMem_of_isName {v : String} (h : IsName v) : '=' ∉ v.toList := by
  intro hmem
  exact absurd (List.all_eq_true.1 (isNameRest_of_isName h) _ hmem) (by decide)

theorem variable_ne_flag (v w : String) : "VAR_" ++ v ≠ "OVERRIDE_" ++ w := by
  intro heq
  have hhead := congrArg (fun s : String => s.toList.head?) heq
  simp [String.toList_append] at hhead

theorem flag_of_variable (v : String) : "OVERRIDE_VAR_" ++ v = "OVERRIDE_" ++ ("VAR_" ++ v) := by
  rw [← String.append_assoc]
  rfl

theorem Script.Assignment.flag_eq_iff {a : Assignment} {v : String} :
    a.flag = "OVERRIDE_VAR_" ++ v ↔ a.name = "VAR_" ++ v := by
  rw [flag, flag_of_variable, String.append_right_inj]

/-- The variables after the two exports that override a variable. -/
theorem Shell.Env.putAll_override (env : Env) (v x n : String) :
    env.putAll [("VAR_" ++ v, x), ("OVERRIDE_VAR_" ++ v, "true")] n =
      if n = "OVERRIDE_VAR_" ++ v then some "true" else if n = "VAR_" ++ v then some x else env n := by
  simp only [putAll, List.foldl_cons, List.foldl_nil, Function.update_apply]

namespace Made

variable {items : List Item} {p : Program} {s : Script} {u : Names} (h : Made items p s u)

include h

theorem nodup_assigned : s.assigned.Nodup := by
  have hnames : List.Forall₂ (fun v n => u.find? n = some ("VAR_" ++ v)) (variablesIn items) s.assigned :=
    List.forall₂_map_right_iff.2 (h.assignments.imp fun v a ha => ha.1)
  refine (List.rel_nodup (h.settled.biUnique "VAR_") hnames).1 ?_
  rw [← Program.keys_variablesOf]
  exact Program.nodup_keys_variablesOf

/-- No variable has the name of a flag. -/
theorem ne_flag {n : String} (hn : n ∈ s.assigned) (name : String) : n ≠ "OVERRIDE_" ++ name := by
  obtain ⟨a, ha, rfl⟩ := List.mem_map.1 hn
  obtain ⟨v, -, hname, -⟩ := exists_left_of_mem h.assignments a ha
  obtain ⟨k, hk⟩ := h.settled.eq_candidate hname
  obtain ⟨more, hmore⟩ := candidate_eq_append (dashless ("VAR_" ++ v)) k
  have hkind : a.name = "VAR_" ++ (dashless v ++ more) := by
    rw [hk, hmore, dashless_append, String.append_assoc]
    rfl
  rw [hkind]
  exact variable_ne_flag _ name

/-- **The value of a variable after an override.** It is the new value if the variable has the name that is made
from `v`; else it stays if it is overridden already, and else it is that of the word, as it is after the
assignments before. -/
theorem override_apply {v : String} (hv : '=' ∉ v.toList) {before after : List Script.Assignment}
    {b : Script.Assignment} (hsplit : s.assignments = before ++ b :: after) (value : Env → Word → String)
    (env : Env) (x : String) : s.override value env v x b.name = if b.name = "VAR_" ++ v then some x
      else if env.isSet b.flag then env b.name
      else some (value (Script.assignAll value
        (env.putAll [("VAR_" ++ v, x), ("OVERRIDE_VAR_" ++ v, "true")]) before) b.value) := by
  have hassigned : s.assigned = (before ++ b :: after).map (·.name) := by rw [Script.assigned, hsplit]
  have hmem : ∀ a ∈ before ++ [b], a.name ∈ s.assigned := by
    intro a ha
    rw [hassigned]
    refine List.mem_map_of_mem ?_
    rw [List.append_cons]
    exact List.mem_append_left after ha
  have hflag : b.flag ∉ before.map (·.name) := by
    intro hb
    obtain ⟨a, ha, heq⟩ := List.mem_map.1 hb
    exact h.ne_flag (hmem a (List.mem_append_left [b] ha)) b.name heq
  have hname : b.name ≠ "OVERRIDE_VAR_" ++ v := by
    rw [flag_of_variable]
    exact h.ne_flag (hmem b (List.mem_append_right before (List.mem_singleton_self b))) ("VAR_" ++ v)
  have hother : b.flag ≠ "VAR_" ++ v := (variable_ne_flag v b.name).symm
  rw [Script.override, exportedBy_setVariable hv, hsplit,
    Script.assignAll_apply (hassigned ▸ h.nodup_assigned) hflag, Env.isSet, Env.putAll_override,
    Env.putAll_override, if_neg hname, if_neg hother]
  by_cases hhit : b.name = "VAR_" ++ v
  · rw [if_pos (Script.Assignment.flag_eq_iff.2 hhit), if_pos hhit, if_pos hhit]
    rfl
  · rw [if_neg fun heq => hhit (Script.Assignment.flag_eq_iff.1 heq), if_neg hhit, if_neg hhit]
    rfl

/-- **An override is for the variable whose name in the table is made from the name as it is given.** -/
theorem override_target_iff {v w n : String} (hn : u.find? n = some ("VAR_" ++ w)) :
    n = "VAR_" ++ v ↔ u.find? ("VAR_" ++ v) = some ("VAR_" ++ w) := by
  constructor
  · rintro rfl
    exact hn
  · exact fun hfind => (h.settled.eq_iff hn hfind).2 rfl

/-- **An override is for the variable that is given just if it has no dashes and no other name has its form.** -/
theorem override_self_iff {v n : String} (hn : u.find? n = some ("VAR_" ++ v)) :
    n = "VAR_" ++ v ↔ dashless v = v ∧ ∀ m, u.find? ("VAR_" ++ v) = some m → m = "VAR_" ++ v := by
  constructor
  · rintro rfl
    refine ⟨dashless_variable_iff.1 (h.settled.dashless_eq hn), fun m hm => ?_⟩
    rw [hn] at hm
    exact (Option.some.inj hm).symm
  · rintro ⟨hv, hfree⟩
    exact (h.settled.eq_self_iff hn (dashless_variable_iff.2 hv)).2 hfree

/-- A variable without dashes and underscores keeps its form, unless a function or an exported variable has the
same with a dash. -/
theorem eq_self_of_simple {v n : String} (hv : IsName v) (hdash : '-' ∉ v.toList) (hplain : '_' ∉ v.toList)
    (hcalled : ∀ e ∈ exprNodes items, e.function? ≠ some ("VAR-" ++ v))
    (hexported : ∀ x ∈ recipesIn items, "VAR-" ++ v ∉ Script.exportNames p x.2)
    (hn : u.find? n = some ("VAR_" ++ v)) : n = "VAR_" ++ v := by
  refine (h.override_self_iff hn).2 ⟨dashless_eq_self hdash, fun m hm => ?_⟩
  obtain ⟨k, hk⟩ := h.settled.eq_candidate hm
  rcases taker_of_variable hv hplain hk with rfl | rfl
  · rfl
  · cases h.asked _ ⟨_, hm⟩ with
    | internal hinternal => exact absurd hinternal (not_internal_of_dash v)
    | called he hf => exact absurd hf (hcalled _ he)
    | exported hr hmem => exact absurd hmem (hexported _ hr)

end Made

/-- **What overriding a variable does.** Overriding `v` exports a value under the name that is made from `v` as it
is given, and a flag for it. These are the two names of the assignment for `v` just if `v` has no dashes and no
other name has the form. The variable with that name, whichever it is, gets the new value, and all others that
are not overridden already get the values of their words. -/
structure Script.Overrides (items : List Item) (p : Program) (u : Names) (s : Script) : Prop where
  assignments : List.Forall₂ (fun v a => u.find? a.name = some ("VAR_" ++ v)) (variablesIn items) s.assignments
  exports : ∀ v ∈ variablesIn items, ∀ x,
    exportedBy setVariableFunction [v, x] = [("VAR_" ++ v, x), ("OVERRIDE_VAR_" ++ v, "true")]
  names : ∀ v ∈ variablesIn items, ∀ x, ∀ a ∈ s.assignments, u.find? a.name = some ("VAR_" ++ v) →
    ((exportedBy setVariableFunction [v, x]).map (·.1) = [a.name, a.flag] ↔
      dashless v = v ∧ ∀ m, u.find? ("VAR_" ++ v) = some m → m = "VAR_" ++ v)
  effect : ∀ v ∈ variablesIn items, ∀ before b after, s.assignments = before ++ b :: after → ∀ value env x,
    s.override value env v x b.name = if b.name = "VAR_" ++ v then some x
      else if env.isSet b.flag then env b.name
      else some (value (assignAll value (env.putAll (exportedBy setVariableFunction [v, x])) before) b.value)
  refused : ∀ v, dashless v ≠ v → Reader.isShellName ("VAR_" ++ v).toList = false
  target : ∀ v w n, u.find? n = some ("VAR_" ++ w) →
    (n = "VAR_" ++ v ↔ u.find? ("VAR_" ++ v) = some ("VAR_" ++ w))
  takers : ∀ v m, u.find? ("VAR_" ++ v) = some m → Asked items p m ∧ ∃ k, "VAR_" ++ v = candidate (dashless m) k
  plain : (∀ m shell, u.find? shell = some m → dashless m = m) →
    ∀ a ∈ s.assignments, ∀ v, u.find? a.name = some ("VAR_" ++ v) → a.name = "VAR_" ++ v
  simple : ∀ v ∈ variablesIn items, '-' ∉ v.toList → '_' ∉ v.toList →
    (∀ e ∈ exprNodes items, e.function? ≠ some ("VAR-" ++ v)) →
    (∀ x ∈ recipesIn items, "VAR-" ++ v ∉ exportNames p x.2) →
    ∀ a ∈ s.assignments, u.find? a.name = some ("VAR_" ++ v) → a.name = "VAR_" ++ v

/-- **Overrides go by the name as it is given.** -/
theorem overrides_exact {edition : Edition} {outfile text script : String} {items : List Item}
    (hparse : parse text = .ok items) (hscript : (compile edition outfile text).script = .ok script) :
    ∃ p s, (Program.ofItems items).result .empty = .ok p ∧
      (Script.ofProgram edition outfile text p).result ((Program.ofItems items).table .empty) = .ok s ∧
      s.text = script ∧ s.Overrides items p (namesAfter edition outfile text items p) := by
  obtain ⟨p, s, hp, hs, htext, hmade⟩ := made_of_compile hparse hscript
  have hexports : ∀ v ∈ variablesIn items, ∀ x, exportedBy Script.setVariableFunction [v, x] =
      [("VAR_" ++ v, x), ("OVERRIDE_VAR_" ++ v, "true")] :=
    fun v hv x => exportedBy_setVariable (equals_notMem_of_isName (isName_of_mem_variablesIn hparse hv)) x
  refine ⟨p, s, hp, hs, htext, hmade.assignments.imp fun v a ha => ha.1, hexports, ?_, ?_, ?_, ?_, ?_, ?_, ?_⟩
  · intro v hv x a _ hname
    rw [hexports v hv x, ← hmade.override_self_iff hname]
    refine ⟨fun heq => (List.cons.inj heq).1.symm, fun heq => ?_⟩
    rw [Script.Assignment.flag_eq_iff.2 heq, heq]
    rfl
  · intro v hv before b after hsplit value env x
    rw [hexports v hv x]
    exact hmade.override_apply (equals_notMem_of_isName (isName_of_mem_variablesIn hparse hv)) hsplit value env x
  · exact fun v hv => not_isShellName_of_dashless_ne fun heq => hv (dashless_variable_iff.1 heq)
  · exact fun v w n hn => hmade.override_target_iff hn
  · exact fun v m hm => ⟨hmade.asked m ⟨_, hm⟩, hmade.settled.eq_candidate hm⟩
  · intro hall a _ v hname
    exact hmade.settled.eq_self_of_dashless (fun shell m => hall m shell) hname
  · intro v hv hdash hplain hcalled hexported a _ hname
    exact hmade.eq_self_of_simple (isName_of_mem_variablesIn hparse hv) hdash hplain hcalled hexported hname

/-- Two variables that differ in a dash. -/
def rivalText : String :=
  "a-b := '1'\na_b := '2'\n"

def rivalItems : List Item :=
  [⟨[], .assignment "a-b" (.text "1")⟩, ⟨[], .assignment "a_b" (.text "2")⟩]

/-- The override of `a_b` is for `a-b`, and `a_b` gets the value that it is declared with. -/
theorem overrides_exact_rivals :
    parse rivalText = .ok rivalItems ∧
      ∃ script p, ∃ s : Script, ∃ a b : Script.Assignment,
        (compile ⟨"2000-01-02", "unknown"⟩ "just.sh" rivalText).script = .ok script ∧ s.text = script ∧
        s.assignments = [a, b] ∧
        (namesAfter ⟨"2000-01-02", "unknown"⟩ "just.sh" rivalText rivalItems p).find? a.name = some "VAR_a-b" ∧
        (namesAfter ⟨"2000-01-02", "unknown"⟩ "just.sh" rivalText rivalItems p).find? b.name = some "VAR_a_b" ∧
        ∀ value x, s.override value (fun _ => none) "a_b" x a.name = some x ∧
          ∃ env, s.override value (fun _ => none) "a_b" x b.name = some (value env b.value) := by
  have hparse : parse rivalText = .ok rivalItems := by decide +kernel
  have hassigned : Script.assignedNames? rivalItems = some ["VAR_a_b", "VAR_a_b_2"] := by decide +kernel
  obtain ⟨script, hscript⟩ := compile_succeeds isDate_sample hparse rfl (by decide +kernel) rfl
  obtain ⟨p, s, hp, hs, htext, hoverrides⟩ := overrides_exact hparse hscript
  rw [Script.assignedNames?_of_ofProgram hp hs, Option.some.injEq] at hassigned
  have hnames := hoverrides.assignments
  have hvariables : variablesIn rivalItems = ["a-b", "a_b"] := by decide
  have hmem : "a_b" ∈ variablesIn rivalItems := by decide
  rw [hvariables] at hnames
  obtain ⟨a, as, ha, hrest, hsplit⟩ := List.forall₂_cons_left_iff.1 hnames
  obtain ⟨b, bs, hb, hnil, rfl⟩ := List.forall₂_cons_left_iff.1 hrest
  cases hnil
  rw [Script.assigned, hsplit] at hassigned
  obtain ⟨hfirst, htail⟩ := List.cons.inj hassigned
  have hhit : a.name = "VAR_" ++ "a_b" := hfirst
  have hsecond : b.name = "VAR_a_b_2" := (List.cons.inj htail).1
  have hmiss : b.name ≠ "VAR_" ++ "a_b" := by
    rw [hsecond]
    decide
  refine ⟨hparse, script, p, s, a, b, hscript, htext, hsplit, ha, hb, fun value x => ⟨?_, ?_⟩⟩
  · rw [hoverrides.effect "a_b" hmem [] a [b] hsplit, if_pos hhit]
  · rw [hoverrides.effect "a_b" hmem [a] b [] hsplit, if_neg hmiss]
    exact ⟨_, rfl⟩

end Justfile
