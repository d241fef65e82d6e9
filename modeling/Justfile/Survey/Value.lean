import Justfile.Datum
import Justfile.Decimal.Text

/-!
# Values of measured runs

What a measured run returns, and what it is set up with: plain data and more, such as numbers with
a fraction, sets, byte strings and grids of numbers.

* `Value.quoted`, `Value.display`: the text of a value inside another one, and on its own.
* `Value.typeName`: the name of a value's type.
* `Value.toJson?`: a value as a JSON document, if it can be written as one.
-/

namespace Justfile.Survey

/-- The three types of byte strings. -/
inductive BytesType where
  | fixed
  | growing
  | view
  deriving DecidableEq

/-- How the cells of a grid are stored: a letter for the kind of number, and a width in bytes. -/
structure CellFormat where
  letter : Char
  width : Nat

/-- The cells of a grid, row by row. -/
inductive Cells where
  | whole (numbers : List Int)
  | real (numbers : List Float)

/-- A value of a measured run. A value that is known by its text alone, such as a date, is
`written`. -/
inductive Value where
  | null
  | flag (b : Bool)
  | int (n : Int)
  | real (x : Float)
  | complex (re im : Float)
  | text (s : String)
  | bytes (type : BytesType) (content : List UInt8)
  | list (items : List Value)
  | tuple (items : List Value)
  | set (frozen : Bool) (items : List Value)
  | dict (entries : List (Value × Value))
  | record (kind : String) (fields : List (String × Value))
  | grid (format : CellFormat) (shape : List Nat) (cells : Cells)
  | written (type text : String)
  | object
  deriving Inhabited

namespace Value

mutual

/-- Plain data as a value. -/
def ofDatum : Datum → Value
  | .null => .null
  | .flag b => .flag b
  | .number n => .int n
  | .text s => .text s
  | .list items => .list (ofItems items)
  | .record kind fields => .record kind (ofFields fields)

/-- A list of plain data as values. -/
def ofItems : List Datum → List Value
  | [] => []
  | d :: rest => ofDatum d :: ofItems rest

/-- The fields of a record of plain data as values. -/
def ofFields : List (String × Datum) → List (String × Value)
  | [] => []
  | (name, d) :: rest => (name, ofDatum d) :: ofFields rest

end

/-- A date. -/
def date (year month day : Nat) : Value :=
  .written "date" s!"datetime.date({year}, {month}, {day})"

/-- A decimal number by its digits. -/
def decimal (digits : String) : Value :=
  .written "Decimal" ("Decimal(" ++ Text.quotedString digits ++ ")")

/-- A fraction, in lowest terms. -/
def fraction (num : Int) (den : Nat) : Value :=
  let common := Nat.gcd num.natAbs den
  .written "Fraction" s!"Fraction({num / common}, {den / common})"

/-- A path, without empty parts and parts of one dot. -/
def path (s : String) : Value :=
  let parts := (s.splitOn "/").filter fun part => part != "" && part != "."
  let body := "/".intercalate parts
  let clean := if s.startsWith "/" then "/" ++ body else if parts.isEmpty then "." else body
  .written "PurePosixPath" ("PurePosixPath(" ++ Text.quotedString clean ++ ")")

/-- An identifier of thirty-two hexadecimal digits, in five groups. -/
def identifier (s : String) : Value :=
  let ds := ((s.toList.filter fun c => c != '-').map Char.toLower)
  let group (start size : Nat) := String.ofList ((ds.drop start).take size)
  let groups := [group 0 8, group 8 4, group 12 4, group 16 4, group 20 12]
  .written "UUID" ("UUID(" ++ Text.quotedString ("-".intercalate groups) ++ ")")

/-- The list of the first natural numbers. -/
def range (n : Nat) : Value :=
  .list ((List.range n).map fun i : Nat => .int (Int.ofNat i))

/-- The name of a value's type. -/
def typeName : Value → String
  | .null => "NoneType"
  | .flag _ => "bool"
  | .int _ => "int"
  | .real _ => "float"
  | .complex _ _ => "complex"
  | .text _ => "str"
  | .bytes .fixed _ => "bytes"
  | .bytes .growing _ => "bytearray"
  | .bytes .view _ => "memoryview"
  | .list _ => "list"
  | .tuple _ => "tuple"
  | .set false _ => "set"
  | .set true _ => "frozenset"
  | .dict _ => "dict"
  | .record kind _ => kind
  | .grid _ _ _ => "ndarray"
  | .written type _ => type
  | .object => "object"

/-- The text of a value that holds no other values. -/
def atomText : Value → List Char
  | .null => "None".toList
  | .flag true => "True".toList
  | .flag false => "False".toList
  | .int n => (toString n).toList
  | .real x => (Decimal.text x).toList
  | .text s => Text.quoted s.toList
  | .written _ s => s.toList
  | v => '<' :: (v.typeName.toList ++ ['>'])

/-- Texts joined by a comma and a blank. -/
def commaJoined (parts : List (List Char)) : List Char :=
  [',', ' '].intercalate parts

mutual

/-- The text of a value inside another one. -/
def quotedChars : Value → List Char
  | .list items => '[' :: (commaJoined (quotedItems items) ++ [']'])
  | .tuple [v] => '(' :: (quotedChars v ++ [',', ')'])
  | .tuple items => '(' :: (commaJoined (quotedItems items) ++ [')'])
  | .dict entries => '{' :: (commaJoined (quotedEntries entries) ++ ['}'])
  | .record kind fields => kind.toList ++ '(' :: (commaJoined (quotedFields fields) ++ [')'])
  | v => atomText v

/-- The texts of the items of a list. -/
def quotedItems : List Value → List (List Char)
  | [] => []
  | v :: rest => quotedChars v :: quotedItems rest

/-- The texts of the entries of a dictionary. -/
def quotedEntries : List (Value × Value) → List (List Char)
  | [] => []
  | (k, v) :: rest => (quotedChars k ++ ':' :: ' ' :: quotedChars v) :: quotedEntries rest

/-- The texts of the fields of a record. -/
def quotedFields : List (String × Value) → List (List Char)
  | [] => []
  | (name, v) :: rest => (name.toList ++ '=' :: quotedChars v) :: quotedFields rest

end

/-- The text of a value inside another one. -/
def quoted (v : Value) : String :=
  String.ofList v.quotedChars

/-- The text of a value on its own: a text is shown as it is. -/
def display : Value → String
  | .text s => s
  | v => v.quoted

/-- How records are written in JSON: as the object of their fields, or as their text. -/
inductive RecordStyle where
  | fields
  | text

/-- A number as a JSON document. -/
def realJson (x : Float) : Json :=
  .number (if x.isNaN then "NaN"
    else if x.isInf then (if Decimal.isNegative x then "-Infinity" else "Infinity")
    else Decimal.text x)

/-- The key of an object that a value can be. -/
def jsonKey? : Value → Option String
  | .text s => some s
  | .int n => some (toString n)
  | .real x => some (Json.compact (realJson x))
  | .flag true => some "true"
  | .flag false => some "false"
  | .null => some "null"
  | _ => none

mutual

/-- A value as a JSON document. Lists, tuples, dictionaries with plain keys, and records can be
written; sets, byte strings, grids and objects cannot. -/
def toJson? (style : RecordStyle) : Value → Option Json
  | .null => some .null
  | .flag b => some (.bool b)
  | .int n => some (.int n)
  | .real x => some (realJson x)
  | .text s => some (.text s)
  | .list items => (itemsToJson? style items).map .array
  | .tuple items => (itemsToJson? style items).map .array
  | .dict entries => (entriesToJson? style entries).map .object
  | .record kind fields =>
    match style with
    | .fields => (fieldsToJson? style fields).map .object
    | .text => some (.text (Value.record kind fields).quoted)
  | _ => none

/-- The items of a list as JSON documents. -/
def itemsToJson? (style : RecordStyle) : List Value → Option (List Json)
  | [] => some []
  | v :: rest => do return (← toJson? style v) :: (← itemsToJson? style rest)

/-- The entries of a dictionary as fields of a JSON object. -/
def entriesToJson? (style : RecordStyle) : List (Value × Value) → Option (List (String × Json))
  | [] => some []
  | (k, v) :: rest => do
    return (← jsonKey? k, ← toJson? style v) :: (← entriesToJson? style rest)

/-- The fields of a record as fields of a JSON object. -/
def fieldsToJson? (style : RecordStyle) : List (String × Value) → Option (List (String × Json))
  | [] => some []
  | (name, v) :: rest => do return (name, ← toJson? style v) :: (← fieldsToJson? style rest)

end

end Value

end Justfile.Survey
