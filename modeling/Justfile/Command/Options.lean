import Justfile.Text.Quoted

/-!
# Command-line options

Options have a short and a long name or one of them, and may take one argument. Long names may be
shortened as long as only one option fits; short ones may be put together, with the argument of the
last one attached. An argument that starts with a dash is an option, unless it is a lone dash, a
negative number, or has a blank in it and is no known option.

* `Options.parse`: the options that were chosen, in order.
* `Options.usage`, `Options.help`: how a command is used.
-/

namespace Justfile.Command

/-- An option of a command. -/
structure Spec (κ : Type) where
  key : κ
  names : List String
  metavar : Option String
  help : String

namespace Spec

variable {κ : Type}

/-- Whether the option takes an argument. -/
def takesValue (s : Spec κ) : Bool :=
  s.metavar.isSome

/-- The name of the option in messages. -/
def title (s : Spec κ) : String :=
  "/".intercalate s.names

end Spec

/-- What is wrong with an argument list. -/
inductive UsageFault where
  | ambiguous (arg : String) (fits : List String)
  | valueMissing (option : String)
  | valueIgnored (option value : String)
  | unrecognized (args : List String)

/-- The message of a usage fault. -/
def UsageFault.message : UsageFault → String
  | .ambiguous arg fits =>
    "ambiguous option: " ++ arg ++ " could match " ++ ", ".intercalate fits
  | .valueMissing option => "argument " ++ option ++ ": expected one argument"
  | .valueIgnored option value =>
    "argument " ++ option ++ ": ignored explicit argument " ++ Text.quotedString value
  | .unrecognized args => "unrecognized arguments: " ++ " ".intercalate args

/-- A value attached to an option, after an equals sign or directly. -/
structure Attached where
  withSign : Bool
  value : List Char

/-- How an argument is to be taken. -/
inductive Reading (κ : Type) where
  | operand
  | separator
  | unknown
  | option (spec : Spec κ) (name : List Char) (attached : Option Attached)

/-- The options of a command. -/
abbrev Options (κ : Type) := List (Spec κ)

namespace Options

variable {κ : Type}

/-- All names with their options, in order. -/
def names (os : Options κ) : List (List Char × Spec κ) :=
  os.flatMap fun s => s.names.map fun n => (n.toList, s)

/-- The option of a name. -/
def find? (os : Options κ) (name : List Char) : Option (Spec κ) :=
  (os.names.find? fun n => n.1 == name).map (·.2)

/-- What stands before the first equals sign, and what after it, if there is one. -/
def splitSign (cs : List Char) : List Char × Option (List Char) :=
  match cs.span (· != '=') with
  | (before, _ :: after) => (before, some after)
  | (before, []) => (before, none)

/-- Minus a decimal number. Digits are assumed to be those of ASCII, and nothing to come after the number: an argument
with other decimal digits, or with a line feed at its end, is not taken for a number here. -/
def isNegativeNumber (cs : List Char) : Bool :=
  match cs with
  | '-' :: rest =>
    match rest.span Char.isDigit with
    | (digits, []) => !digits.isEmpty
    | (_, '.' :: decimals) => !decimals.isEmpty && decimals.all Char.isDigit
    | _ => false
  | _ => false

/-- The options that an argument with two dashes fits, by the start of a name. -/
def longFits (os : Options κ) (arg : List Char) : List (List Char × Reading κ) :=
  let (start, value) := splitSign arg
  (os.names.filter fun n => start.isPrefixOf n.1).map fun (n, s) =>
    (n, .option s n (value.map fun v => ⟨true, v⟩))

/-- The options that an argument with one dash fits: the one of its first letter, with the rest
attached, and those whose name starts with it. -/
def shortFits (os : Options κ) (arg : List Char) : List (List Char × Reading κ) :=
  os.names.filterMap fun (n, s) =>
    if n == arg.take 2 then some (n, .option s n (some ⟨false, arg.drop 2⟩))
    else if arg.isPrefixOf n then some (n, .option s n none)
    else none

/-- How an argument that starts with a dash, and is not just a dash, is to be taken. -/
def classifyDashed (os : Options κ) (arg : List Char) : Except UsageFault (Reading κ) :=
  match os.find? arg, splitSign arg with
  | some s, _ => pure (.option s arg none)
  | none, (start, value) =>
    match os.find? start, value with
    | some s, some v => pure (.option s start (some ⟨true, v⟩))
    | _, _ =>
      let fits := if "--".toList.isPrefixOf arg then os.longFits arg else os.shortFits arg
      match fits with
      | [(_, r)] => pure r
      | [] => pure (if isNegativeNumber arg || arg.contains ' ' then .operand else .unknown)
      | _ => throw (.ambiguous (String.ofList arg) (fits.map fun f => String.ofList f.1))

/-- How an argument is to be taken. -/
def classify (os : Options κ) (arg : String) : Except UsageFault (Reading κ) :=
  match arg.toList with
  | '-' :: c :: cs => os.classifyDashed ('-' :: c :: cs)
  | _ => pure .operand

/-- How the arguments are to be taken: after two dashes all are operands. -/
def classifyAll (os : Options κ) : List String → Except UsageFault (List (String × Reading κ))
  | [] => pure []
  | arg :: rest => do
    if arg = "--" then pure ((arg, .separator) :: rest.map fun a => (a, .operand))
    else
      let r ← os.classify arg
      let more ← os.classifyAll rest
      pure ((arg, r) :: more)

/-- An option that was chosen, with its argument if it takes one. -/
abbrev Choice (κ : Type) := κ × Option String

/-- What one argument gives. -/
structure Step (κ : Type) where
  choices : List (Choice κ)
  /-- The option that still needs its argument. -/
  pending : Option (Spec κ)
  /-- What is not recognized. -/
  extra : List String

/-- The options put together in one argument: the letters of `attached` after the option `spec`.
`name` is how `spec` was written. -/
def expand (os : Options κ) (spec : Spec κ) (name : List Char) (sign : Bool) :
    List Char → Except UsageFault (Step κ)
  | [] =>
    if spec.takesValue then pure ⟨[(spec.key, some "")], none, []⟩
    else throw (.valueIgnored spec.title "")
  | c :: cs =>
    if spec.takesValue then pure ⟨[(spec.key, some (String.ofList (c :: cs)))], none, []⟩
    else if "--".toList.isPrefixOf name || sign || c == '-' then
      throw (.valueIgnored spec.title (String.ofList (c :: cs)))
    else
      match os.find? ['-', c], cs with
      | none, _ => pure ⟨[(spec.key, none)], none, [String.ofList ('-' :: c :: cs)]⟩
      | some next, [] =>
        if next.takesValue then pure ⟨[(spec.key, none)], some next, []⟩
        else pure ⟨[(spec.key, none), (next.key, none)], none, []⟩
      | some next, '=' :: value => do
        let step ← os.expand next ['-', c] true value
        pure { step with choices := (spec.key, none) :: step.choices }
      | some next, cs => do
        let step ← os.expand next ['-', c] false cs
        pure { step with choices := (spec.key, none) :: step.choices }

/-- What an option with its attached value gives. -/
def step (os : Options κ) (spec : Spec κ) (name : List Char) :
    Option Attached → Except UsageFault (Step κ)
  | some a => os.expand spec name a.withSign a.value
  | none =>
    if spec.takesValue then pure ⟨[], some spec, []⟩ else pure ⟨[(spec.key, none)], none, []⟩

/-- The options that arguments choose after those of `chosen`, up to the first one that `ends` the
reading. `waiting` is the option that the next argument is the value of, and `extra` are the
arguments that are not recognized. -/
def consume (os : Options κ) (ends : κ → Bool) (waiting : Option (Spec κ))
    (chosen : List (Choice κ)) (extra : List String) :
    List (String × Reading κ) → Except UsageFault (List (Choice κ))
  | [] =>
    match waiting with
    | some spec => throw (.valueMissing spec.title)
    | none => if extra.isEmpty then pure chosen else throw (.unrecognized extra)
  | (arg, reading) :: rest =>
    match waiting, reading with
    | some spec, .operand =>
      let chosen := chosen ++ [(spec.key, some arg)]
      if chosen.any (ends ·.1) then pure chosen else consume os ends none chosen extra rest
    | some spec, _ => throw (.valueMissing spec.title)
    | none, .option spec name attached =>
      match os.step spec name attached with
      | .error f => throw f
      | .ok step =>
        let chosen := chosen ++ step.choices
        if step.pending.isNone && chosen.any (ends ·.1) then pure chosen
        else consume os ends step.pending chosen (extra ++ step.extra) rest
    | none, _ => consume os ends none chosen (extra ++ [arg]) rest

/-- The options that an argument list chooses, in order, up to the first that `ends` the reading. -/
def parse (os : Options κ) (ends : κ → Bool) (args : List String) :
    Except UsageFault (List (Choice κ)) := do
  os.consume ends none [] [] (← os.classifyAll args)

/-- The option as it stands in a usage line. -/
def usagePart (s : Spec κ) : String :=
  "[" ++ s.names.headD "" ++ (s.metavar.elim "" (" " ++ ·)) ++ "]"

/-- The width of messages. -/
def messageWidth : Nat := 78

/-- Words put on lines that start with `indent` and are at most as long as messages are wide. The
first line has `used` characters already. -/
def fill (indent : String) (used : Nat) (line : List String) : List String → List String
  | [] => if line.isEmpty then [] else [indent ++ " ".intercalate line]
  | part :: rest =>
    if used + 1 + part.length > messageWidth && !line.isEmpty then
      (indent ++ " ".intercalate line) ::
        fill indent (indent.length + part.length) [part] rest
    else fill indent (used + part.length + 1) (line ++ [part]) rest

/-- Blanks. -/
def blanks (n : Nat) : String :=
  String.ofList (List.replicate n ' ')

/-- How a command is used, in one line if it fits. -/
def usage (os : Options κ) (program : String) : String :=
  let start := "usage: "
  let parts := os.map usagePart
  let whole := start ++ " ".intercalate (program :: parts)
  if whole.length ≤ messageWidth then whole
  else if 4 * (start.length + program.length) ≤ 3 * messageWidth then
    let indent := blanks (start.length + program.length + 1)
    match fill indent (start.length - 1) [] (program :: parts) with
    | first :: rest =>
      "\n".intercalate ((start ++ String.ofList (first.toList.drop indent.length)) :: rest)
    | [] => start
  else
    let indent := blanks start.length
    "\n".intercalate ((start ++ program) :: fill indent (indent.length - 1) [] parts)

/-- The option as it stands in a help text. -/
def helpTitle (s : Spec κ) : String :=
  ", ".intercalate (s.names.map fun n => n ++ s.metavar.elim "" (" " ++ ·))

/-- The lines of a help text for an option: the description stands in a column of its own, on a
line of its own if the names are long. -/
def helpLines (s : Spec κ) : String :=
  let title := helpTitle s
  if title.length ≤ 20 then "  " ++ title ++ blanks (20 - title.length) ++ "  " ++ s.help ++ "\n"
  else "  " ++ title ++ "\n" ++ blanks 24 ++ s.help ++ "\n"

/-- The help text of a command. -/
def help (os : Options κ) (program description : String) : String :=
  os.usage program ++ "\n\n" ++ description ++ "\n\noptions:\n" ++ String.join (os.map helpLines)

end Options

end Justfile.Command
