import Justfile.Json

/-!
# Reading JSON

`Json.parse?` reads a document. Numbers keep their literal, a repeated key stays repeated, and
two surrogate escapes in a row give one character.
-/

namespace Justfile.Json

/-- The blanks between the tokens of a document. -/
def isFiller (c : Char) : Bool :=
  c == ' ' || c == '\t' || c == '\n' || c == '\r'

/-- The value of four hexadecimal digits. -/
def unit? (a b c d : Char) : Option Nat := do
  let a ← Text.hexValue? a
  let b ← Text.hexValue? b
  let c ← Text.hexValue? c
  let d ← Text.hexValue? d
  return ((a * 16 + b) * 16 + c) * 16 + d

/-- The character of a one-letter escape. -/
def escaped? (c : Char) : Option Char :=
  match c with
  | '"' => some '"'
  | '\\' => some '\\'
  | '/' => some '/'
  | 'n' => some '\n'
  | 'r' => some '\r'
  | 't' => some '\t'
  | 'f' => some '\x0c'
  | 'b' => some '\x08'
  | _ => none

/-- The code points of a string up to its closing quote, where those of `units` come before them,
last one first. Surrogates are still apart. -/
def readUnits (units : List Nat) : List Char → Option (List Nat × List Char)
  | [] => none
  | '"' :: cs => some (units.reverse, cs)
  | '\\' :: 'u' :: a :: b :: c :: d :: cs =>
    match unit? a b c d with
    | some u => readUnits (u :: units) cs
    | none => none
  | '\\' :: c :: cs =>
    match escaped? c with
    | some e => readUnits (e.toNat :: units) cs
    | none => none
  | c :: cs => readUnits (c.toNat :: units) cs

/-- Characters from code points, two surrogates making one. -/
def pairUnits : List Nat → List Char
  | [] => []
  | [u] => [Char.ofNat u]
  | u :: v :: rest =>
    if 0xD800 ≤ u && u < 0xDC00 && 0xDC00 ≤ v && v < 0xE000 then
      Char.ofNat (0x10000 + (u - 0xD800) * 0x400 + (v - 0xDC00)) :: pairUnits rest
    else Char.ofNat u :: pairUnits (v :: rest)

/-- A string after its opening quote. -/
def readString (cs : List Char) : Option (String × List Char) :=
  (readUnits [] cs).map fun (units, rest) => (String.ofList (pairUnits units), rest)

/-- The characters of numbers. -/
def isNumeric (c : Char) : Bool :=
  c.isDigit || c == '-' || c == '+' || c == '.' || c == 'e' || c == 'E'

/-- A number, or one of the words `null`, `true` and `false`. -/
def readScalar (cs : List Char) : Option (Json × List Char) :=
  match cs with
  | 'n' :: 'u' :: 'l' :: 'l' :: rest => some (.null, rest)
  | 't' :: 'r' :: 'u' :: 'e' :: rest => some (.bool true, rest)
  | 'f' :: 'a' :: 'l' :: 's' :: 'e' :: rest => some (.bool false, rest)
  | _ =>
    match cs.takeWhile isNumeric with
    | [] => none
    | digits => some (.number (String.ofList digits), cs.dropWhile isNumeric)

/-- The text after the blanks at its start. -/
def skipFiller (cs : List Char) : List Char :=
  cs.dropWhile isFiller

mutual

/-- A document; `fuel` bounds the number of tokens. -/
def readValue : (fuel : Nat) → List Char → Option (Json × List Char)
  | 0, _ => none
  | fuel + 1, cs =>
    match skipFiller cs with
    | '"' :: rest => (readString rest).map fun (s, rest) => (.text s, rest)
    | '[' :: rest =>
      match skipFiller rest with
      | ']' :: rest => some (.array [], rest)
      | rest => (readItems fuel [] rest).map fun (items, rest) => (.array items, rest)
    | '{' :: rest =>
      match skipFiller rest with
      | '}' :: rest => some (.object [], rest)
      | rest => (readFields fuel [] rest).map fun (fields, rest) => (.object fields, rest)
    | rest => readScalar rest

/-- The items of an array after those of `acc`, last one first. -/
def readItems : (fuel : Nat) → (acc : List Json) → List Char → Option (List Json × List Char)
  | 0, _, _ => none
  | fuel + 1, acc, cs =>
    match readValue fuel cs with
    | some (j, rest) =>
      match skipFiller rest with
      | ',' :: rest => readItems fuel (j :: acc) rest
      | ']' :: rest => some ((j :: acc).reverse, rest)
      | _ => none
    | none => none

/-- The fields of an object after those of `acc`, last one first. -/
def readFields : (fuel : Nat) → (acc : List (String × Json)) → List Char →
    Option (List (String × Json) × List Char)
  | 0, _, _ => none
  | fuel + 1, acc, cs =>
    match skipFiller cs with
    | '"' :: rest =>
      match readString rest with
      | some (key, rest) =>
        match skipFiller rest with
        | ':' :: rest =>
          match readValue fuel rest with
          | some (j, rest) =>
            match skipFiller rest with
            | ',' :: rest => readFields fuel ((key, j) :: acc) rest
            | '}' :: rest => some (((key, j) :: acc).reverse, rest)
            | _ => none
          | none => none
        | _ => none
      | none => none
    | _ => none

end

/-- The document that a text is. -/
def parse? (s : String) : Option Json :=
  let cs := s.toList
  match readValue (cs.length + 1) cs with
  | some (j, rest) => if (skipFiller rest).isEmpty then some j else none
  | none => none

end Justfile.Json
