import Justfile.Digest
import Justfile.Survey.Value

/-!
# Fingerprints

The fingerprint of a value is the digest of a stream of bytes that describes it. Lists and tuples
with the same items have the same fingerprint, and so do dictionaries and sets whatever the order
of their entries. Numbers count with six digits.

* `stream`: the bytes that describe a value.
* `fingerprint`: the digest of the stream.
-/

namespace Justfile.Survey

/-- The bytes of a text. -/
def utf8 (s : String) : List UInt8 :=
  s.toUTF8.toList

/-- The `width` lowest bytes of a whole number, the lowest one first. -/
def littleEndian (width : Nat) (n : Int) : List UInt8 :=
  (List.range width).map fun i => UInt8.ofNat ((n / Int.ofNat (Nat.pow 256 i)) % 256).toNat

/-- The text of a number in a stream: six digits count. -/
def realText (x : Float) : String :=
  Decimal.text (Decimal.significant 6 x)

/-- The text of a cell format: order of bytes, kind of number, and width. -/
def CellFormat.text (f : CellFormat) : String :=
  String.ofList [if f.width == 1 then '|' else '<', f.letter] ++ toString f.width

/-- The text of a shape. -/
def shapeText : List Nat → String
  | [n] => s!"({n},)"
  | ns => "(" ++ ", ".intercalate (ns.map toString) ++ ")"

/-- The bytes of the cells of a grid: numbers with a fraction by their text. -/
def cellBytes (width : Nat) : Cells → List UInt8
  | .whole ns => ns.flatMap (littleEndian width)
  | .real xs => xs.flatMap fun x => utf8 (realText x)

/-- The stream of a value that holds no other values. -/
def atomStream : Value → List UInt8
  | .real x => utf8 (realText x)
  | .complex re im => utf8 (realText re ++ realText im)
  | .text s => utf8 ("s" ++ s)
  | .bytes _ content => utf8 "s" ++ content
  | .grid format shape cells =>
    utf8 ("A" ++ shapeText shape ++ format.text) ++ cellBytes format.width cells
  | .object => utf8 "<builtins.object>"
  | v => utf8 (String.ofList v.atomText)

/-- Streams under keys, in the order of the keys. -/
def inKeyOrder (entries : List (String × List UInt8)) : List UInt8 :=
  (entries.mergeSort fun e f => e.1 ≤ f.1).flatMap (·.2)

/-- A letter and a length. -/
def head (letter : String) (length : Nat) : List UInt8 :=
  utf8 (letter ++ toString length)

mutual

/-- The bytes that describe a value. A dictionary is described by its entries in the order of the
fingerprints of their keys, a record by its fields like a dictionary, and a set by the sorted
fingerprints of its items. -/
def stream : Value → List UInt8
  | .list items => head "L" items.length ++ (streams items).flatten
  | .tuple items => head "L" items.length ++ (streams items).flatten
  | .set _ items =>
    let marks := ((streams items).map Digest.hexOfBytes).eraseDups
    head "S" marks.length ++ (marks.mergeSort (· ≤ ·)).flatMap utf8
  | .dict entries => head "D" entries.length ++ inKeyOrder (entryStreams entries)
  | .record _ fields => head "D" fields.length ++ inKeyOrder (fieldStreams fields)
  | v => atomStream v

/-- The streams of a list of values. -/
def streams : List Value → List (List UInt8)
  | [] => []
  | v :: rest => stream v :: streams rest

/-- The streams of the entries of a dictionary, each under the fingerprint of its key. -/
def entryStreams : List (Value × Value) → List (String × List UInt8)
  | [] => []
  | (k, v) :: rest =>
    (Digest.hexOfBytes (stream k), stream k ++ stream v) :: entryStreams rest

/-- The streams of the fields of a record, each under the fingerprint of its name. -/
def fieldStreams : List (String × Value) → List (String × List UInt8)
  | [] => []
  | (name, v) :: rest =>
    (Digest.hexOfBytes (utf8 ("s" ++ name)), utf8 ("s" ++ name) ++ stream v) :: fieldStreams rest

end

/-- The fingerprint of a value. -/
def fingerprint (v : Value) : String :=
  Digest.hexOfBytes (stream v)

end Justfile.Survey
