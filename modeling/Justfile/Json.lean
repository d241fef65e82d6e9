import Justfile.Text.Hex

/-!
# JSON documents

Documents and their text. Numbers keep the literal they are written with, so a document says
whether a whole number is written `5` or `5.0`. The text has ASCII characters only.

* `Json.compact`: the text on one line, with a blank after commas and colons.
* `Json.indented`: the text over several lines, two blanks for each level.
-/

namespace Justfile

/-- A JSON document; the fields of an object keep their order. -/
inductive Json where
  | null
  | bool (b : Bool)
  | number (literal : String)
  | text (s : String)
  | array (items : List Json)
  | object (fields : List (String × Json))
  deriving Inhabited

namespace Json

/-- A whole number. -/
def int (n : Int) : Json :=
  .number (toString n)

/-- A natural number. -/
def nat (n : Nat) : Json :=
  .number (toString n)

/-- A list of strings. -/
def texts (ss : List String) : Json :=
  .array (ss.map .text)

/-- The value of a field, the last one if the field is repeated. -/
def field? (key : String) : Json → Option Json
  | .object fields => (fields.reverse.find? fun f => f.1 == key).map (·.2)
  | _ => none

/-- One sixteen-bit unit as an escape. -/
def unitEscape (n : Nat) : List Char :=
  '\\' :: 'u' :: Text.hex 4 n

/-- The short escapes of a JSON string. -/
def shortEscape? (c : Char) : Option Char :=
  match c with
  | '"' => some '"'
  | '\\' => some '\\'
  | '\n' => some 'n'
  | '\r' => some 'r'
  | '\t' => some 't'
  | '\x0c' => some 'f'
  | '\x08' => some 'b'
  | _ => none

/-- A character of a JSON string: by its short escape, as itself if it is printable ASCII, and by
one or two unit escapes otherwise. -/
def charText (c : Char) : List Char :=
  match shortEscape? c with
  | some e => ['\\', e]
  | none =>
    let n := c.toNat
    if 0x20 ≤ n && n ≤ 0x7E then [c]
    else if n < 0x10000 then unitEscape n
    else unitEscape (0xD800 + (n - 0x10000) / 0x400) ++ unitEscape (0xDC00 + (n - 0x10000) % 0x400)

/-- A string between quotes. -/
def stringText (s : String) : List Char :=
  '"' :: (s.toList.flatMap charText ++ ['"'])

/-- The text of a document that is no array and no object. -/
def scalarText : Json → List Char
  | .null => "null".toList
  | .bool true => "true".toList
  | .bool false => "false".toList
  | .number literal => literal.toList
  | .text s => stringText s
  | .array _ => []
  | .object _ => []

mutual

/-- The text of a document on one line. -/
def compactChars : Json → List Char
  | .array items => '[' :: (compactItems items ++ [']'])
  | .object fields => '{' :: (compactFields fields ++ ['}'])
  | j => scalarText j

/-- The items of an array, separated by a comma and a blank. -/
def compactItems : List Json → List Char
  | [] => []
  | [j] => compactChars j
  | j :: k :: rest => compactChars j ++ ',' :: ' ' :: compactItems (k :: rest)

/-- The fields of an object, separated by a comma and a blank. -/
def compactFields : List (String × Json) → List Char
  | [] => []
  | [(key, j)] => stringText key ++ ':' :: ' ' :: compactChars j
  | (key, j) :: f :: rest =>
    stringText key ++ ':' :: ' ' :: (compactChars j ++ ',' :: ' ' :: compactFields (f :: rest))

end

/-- The text of a document on one line. -/
def compact (j : Json) : String :=
  String.ofList (compactChars j)

/-- A line feed and the blanks that start a line at a depth. -/
def newLine (depth : Nat) : List Char :=
  '\n' :: List.replicate (2 * depth) ' '

mutual

/-- The text of a document whose first character stands at `depth`. -/
def indentedChars (depth : Nat) : Json → List Char
  | .array [] => ['[', ']']
  | .array (j :: rest) => '[' :: (indentedItems (depth + 1) (j :: rest) ++ newLine depth ++ [']'])
  | .object [] => ['{', '}']
  | .object (f :: rest) => '{' :: (indentedFields (depth + 1) (f :: rest) ++ newLine depth ++ ['}'])
  | j => scalarText j

/-- The items of an array, each on a line of its own. -/
def indentedItems (depth : Nat) : List Json → List Char
  | [] => []
  | [j] => newLine depth ++ indentedChars depth j
  | j :: k :: rest =>
    newLine depth ++ indentedChars depth j ++ ',' :: indentedItems depth (k :: rest)

/-- The fields of an object, each on a line of its own. -/
def indentedFields (depth : Nat) : List (String × Json) → List Char
  | [] => []
  | [(key, j)] => newLine depth ++ stringText key ++ ':' :: ' ' :: indentedChars depth j
  | (key, j) :: f :: rest =>
    newLine depth ++ stringText key ++
      ':' :: ' ' :: (indentedChars depth j ++ ',' :: indentedFields depth (f :: rest))

end

/-- The text of a document over several lines. -/
def indented (j : Json) : String :=
  String.ofList (indentedChars 0 j)

end Json

end Justfile
