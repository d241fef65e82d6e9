import Justfile.Parsing.Trace

/-!
# Parsers that report the furthest failure

A parser reads characters from a cursor. Alternatives are tried in order and the first that
succeeds is taken. Failures are remembered also when another alternative succeeds: every outcome
carries the furthest place where something failed, and that place is reported if the text as a
whole is refused. A rejection ends the parse at once, without trying alternatives.

* `Parser.bind`, `Parser.orElse`: the furthest failures of the parts are joined.
* `Parser.many`: greedy repetition, whose last failing attempt counts.
* `Parser.untilEnd`: repetition up to, and without, an end; failures inside are forgotten.
-/

namespace Justfile.Parsing

/-- The characters still to read, and how many were read. -/
structure Cursor where
  rest : List Char
  pos : Nat

/-- What a parser gives. `far` is the furthest place where something failed, and zero if nothing
did. -/
inductive Outcome (α : Type) where
  | done (value : α) (next : Cursor) (far : Nat)
  | failed (far : Nat)
  | rejected (recipe : String)

/-- The outcome with an earlier furthest failure joined to its own. -/
def Outcome.join {α : Type} (far : Nat) : Outcome α → Outcome α
  | .done value next far' => .done value next (max far far')
  | .failed far' => .failed (max far far')
  | .rejected recipe => .rejected recipe

/-- A parser with a listener of type `ω`. -/
structure Parser (ω α : Type) where
  run : Cursor → ω → Outcome α × ω

namespace Parser

variable {ω α β : Type}

/-- Runs a parser. As a function of its own it keeps apart the levels of a nested grammar. -/
def apply (p : Parser ω α) (c : Cursor) (t : ω) : Outcome α × ω :=
  p.run c t

/-- Succeeds without reading. -/
def pure (a : α) : Parser ω α where
  run c t := (.done a c 0, t)

/-- Fails without reading. -/
def fail : Parser ω α where
  run c t := (.failed c.pos, t)

/-- Ends the parse. -/
def reject (recipe : String) : Parser ω α where
  run _ t := (.rejected recipe, t)

/-- One parser after the other. -/
def bind (p : Parser ω α) (f : α → Parser ω β) : Parser ω β where
  run c t :=
    match p.run c t with
    | (.done a next far, t') =>
      let (o, t'') := (f a).run next t'
      (o.join far, t'')
    | (.failed far, t') => (.failed far, t')
    | (.rejected recipe, t') => (.rejected recipe, t')

instance : Monad (Parser ω) where
  pure := Parser.pure
  bind := Parser.bind

/-- The second parser where the first fails. -/
def orElse (p : Parser ω α) (q : Unit → Parser ω α) : Parser ω α where
  run c t :=
    match p.run c t with
    | (.failed far, t') =>
      let (o, t'') := (q ()).run c t'
      (o.join far, t'')
    | r => r

instance : OrElse (Parser ω α) where
  orElse := Parser.orElse

/-- What follows `s` in a text that starts with it. -/
def after? : (s cs : List Char) → Option (List Char)
  | [], cs => some cs
  | a :: s, c :: cs => if a = c then after? s cs else none
  | _ :: _, [] => none

/-- The characters of `s`. -/
def chars (s : List Char) : Parser ω (List Char) where
  run c t :=
    match after? s c.rest with
    | some rest => (.done s ⟨rest, c.pos + s.length⟩ 0, t)
    | none => (.failed c.pos, t)

/-- The characters of a string. -/
def word (s : String) : Parser ω String :=
  (fun _ => s) <$> chars s.toList

/-- One character of a class. -/
def satisfy (ok : Char → Bool) : Parser ω Char where
  run c t :=
    match c.rest with
    | x :: rest => if ok x then (.done x ⟨rest, c.pos + 1⟩ 0, t) else (.failed c.pos, t)
    | [] => (.failed c.pos, t)

/-- One character of a first class and as many of a second as there are. -/
def span (first others : Char → Bool) : Parser ω (List Char) where
  run c t :=
    match c.rest with
    | x :: rest =>
      if first x then
        let xs := rest.takeWhile others
        (.done (x :: xs) ⟨rest.dropWhile others, c.pos + 1 + xs.length⟩ 0, t)
      else (.failed c.pos, t)
    | [] => (.failed c.pos, t)

/-- The end of the text. -/
def eof : Parser ω Unit where
  run c t :=
    match c.rest with
    | [] => (.done () c 0, t)
    | _ :: _ => (.failed c.pos, t)

/-- At most `n` more repetitions after those of `acc`, last one first. -/
def manyLoop (p : Parser ω α) :
    (n : Nat) → (acc : List α) → (far : Nat) → Cursor → ω → Outcome (List α) × ω
  | 0, acc, far, c, t => (.done acc.reverse c far, t)
  | n + 1, acc, far, c, t =>
    match p.run c t with
    | (.done a next far', t') => manyLoop p n (a :: acc) (max far far') next t'
    | (.failed far', t') => (.done acc.reverse c (max far far'), t')
    | (.rejected recipe, t') => (.rejected recipe, t')

/-- As many repetitions as possible. A repeated parser reads at least one character, so there are
no more repetitions than characters. -/
def many (p : Parser ω α) : Parser ω (List α) where
  run c t := manyLoop p (c.rest.length + 1) [] 0 c t

/-- As many repetitions as possible, but at least one. -/
def many1 (p : Parser ω α) : Parser ω (List α) := do
  let a ← p
  let as ← many p
  return a :: as

/-- The value of the parser, or nothing where it fails. -/
def optional (p : Parser ω α) : Parser ω (Option α) where
  run c t :=
    match p.run c t with
    | (.done a next far, t') => (.done (some a) next far, t')
    | (.failed far, t') => (.done none c far, t')
    | (.rejected recipe, t') => (.rejected recipe, t')

/-- Items with a separator between each two. A separator without an item after it is not read. -/
def sepBy (p : Parser ω α) (sep : Parser ω β) : Parser ω (List α) :=
  (do
    let a ← p
    let as ← many (do let _ ← sep; p)
    return a :: as)
  <|> Parser.pure []

/-- At most `n` more repetitions of `p` after those of `acc`, up to where `stop` succeeds. -/
def untilLoop (p : Parser ω α) (stop : Parser ω β) (least : Nat) :
    (n : Nat) → (count : Nat) → (acc : List α) → Cursor → ω → Outcome (List α) × ω
  | 0, _, _, c, t => (.failed c.pos, t)
  | n + 1, count, acc, c, t =>
    match stop.run c t with
    | (.rejected recipe, t') => (.rejected recipe, t')
    | (stopped, t') =>
      if stopped matches .done .. && least ≤ count then (.done acc.reverse c 0, t')
      else match p.run c t' with
        | (.done a next _, t'') => untilLoop p stop least n (count + 1) (a :: acc) next t''
        | (.failed _, t'') => (.failed c.pos, t'')
        | (.rejected recipe, t'') => (.rejected recipe, t'')

/-- Repetitions of `p`, at least `least` of them, up to the first place where `stop` succeeds. The
end itself is not read, and no failure inside is remembered. -/
def untilEnd (p : Parser ω α) (stop : Parser ω β) (least : Nat) : Parser ω (List α) where
  run c t := untilLoop p stop least (c.rest.length + 1) 0 [] c t

/-- The value of the parser, without reading. -/
def peek (p : Parser ω α) : Parser ω α where
  run c t :=
    match p.run c t with
    | (.done a _ _, t') => (.done a c 0, t')
    | r => r

/-- Succeeds, without reading, where the parser fails. -/
def absent (p : Parser ω α) : Parser ω Unit where
  run c t :=
    match p.run c t with
    | (.done _ _ _, t') => (.failed c.pos, t')
    | (.failed _, t') => (.done () c 0, t')
    | (.rejected recipe, t') => (.rejected recipe, t')

/-- Tells the listener about each success of a rule, with the value shown by `data`. -/
def tracedBy [Listener ω] (rule : String) (data : α → Datum) (p : Parser ω α) : Parser ω α where
  run c t :=
    match p.run c t with
    | (.done a next far, t') => (.done a next far, Listener.hear t' fun _ => ⟨rule, data a⟩)
    | r => r

/-- Tells the listener about each success of a rule. -/
def traced [Listener ω] [ToDatum α] (rule : String) (p : Parser ω α) : Parser ω α :=
  tracedBy rule toDatum p

end Parser

end Justfile.Parsing
