import Justfile.Decimal.Binary

/-!
# Floating-point numbers as text

* `text`: the fewest digits that identify a number, positionally from one ten-thousandth up to ten
  to the sixteenth, otherwise with a signed exponent of two digits.
* `fixed`: a number with a given number of places.
* `roundTo`, `significant`: the nearest number with so many places, or so many digits.
* `read?`: the number that a text writes.
-/

namespace Justfile.Decimal

/-- Whether the sign of a number is minus. -/
def isNegative (x : Float) : Bool :=
  x.toBits >>> 63 == 1

/-- The text of a number that is not finite. -/
def specialText? (x : Float) : Option String :=
  if x.isNaN then some "nan"
  else if x.isInf then some (if isNegative x then "-inf" else "inf")
  else none

/-- A number with the sign of another one. -/
def withSignOf (x y : Float) : Float :=
  if isNegative x then -y else y

/-- The number that digits write, rounded to nearest. -/
def Digits.toFloat (d : Digits) : Float :=
  Float.ofScientific d.digits (d.exponent < 0) d.exponent.natAbs

/-- Digits with a point after the first `whole` of them, and zeros where digits are missing. -/
def positional (ds : List Char) (whole : Int) : List Char :=
  if whole ≤ 0 then '0' :: '.' :: (List.replicate (-whole).toNat '0' ++ ds)
  else if whole.toNat < ds.length then ds.take whole.toNat ++ '.' :: ds.drop whole.toNat
  else ds ++ List.replicate (whole.toNat - ds.length) '0' ++ ['.', '0']

/-- A signed exponent of at least two digits. -/
def exponentText (e : Int) : List Char :=
  let ds := (Nat.repr e.natAbs).toList
  'e' :: (if e < 0 then '-' else '+') :: (List.replicate (2 - ds.length) '0' ++ ds)

/-- Digits with a point after the first one, if there are more, and an exponent. -/
def scientific (ds : List Char) (e : Int) : List Char :=
  match ds with
  | [] => []
  | [c] => c :: exponentText e
  | c :: rest => c :: '.' :: (rest ++ exponentText e)

/-- The text of decimal digits. -/
def Digits.text (d : Digits) : List Char :=
  let ds := (Nat.repr d.digits).toList
  let whole : Int := ds.length + d.exponent
  if -4 < whole && whole ≤ 16 then positional ds whole else scientific ds (whole - 1)

/-- The text of a number: the fewest digits that identify it. -/
def text (x : Float) : String :=
  match specialText? x with
  | some s => s
  | none =>
    let sign := if isNegative x then ['-'] else []
    String.ofList (sign ++ (Binary.ofBits x.toBits).shortest.text)

/-- A number with a given number of places. -/
def fixed (places : Nat) (x : Float) : String :=
  match specialText? x with
  | some s => s
  | none =>
    let ds := (Nat.repr ((Binary.ofBits x.toBits).rounded (-(places : Int))).digits).toList
    let ds := List.replicate (places + 1 - ds.length) '0' ++ ds
    let whole := ds.length - places
    let tail := if places == 0 then [] else '.' :: ds.drop whole
    String.ofList ((if isNegative x then ['-'] else []) ++ ds.take whole ++ tail)

/-- The nearest number with so many places. -/
def roundTo (places : Nat) (x : Float) : Float :=
  if x.isNaN || x.isInf then x
  else withSignOf x ((Binary.ofBits x.toBits).rounded (-(places : Int))).toFloat

/-- The nearest number with so many digits. -/
def significant (count : Nat) (x : Float) : Float :=
  let b := Binary.ofBits x.toBits
  if x.isNaN || x.isInf || b.mantissa == 0 then x
  else withSignOf x (b.rounded (b.scale - count)).toFloat

/-- The whole number that decimal digits write. -/
def natOfDigits (cs : List Char) : Nat :=
  cs.foldl (fun n c => 10 * n + (c.toNat - 48)) 0

/-- A signed whole number. -/
def readExponent? (cs : List Char) : Option Int :=
  let (negative, ds) := match cs with
    | '-' :: ds => (true, ds)
    | '+' :: ds => (false, ds)
    | ds => (false, ds)
  if ds.isEmpty || !ds.all Char.isDigit then none
  else some (if negative then -(natOfDigits ds : Int) else natOfDigits ds)

/-- A number without sign: digits, perhaps a point and digits, perhaps an exponent. -/
def readUnsigned? (cs : List Char) : Option Float :=
  let whole := cs.takeWhile Char.isDigit
  let rest := cs.dropWhile Char.isDigit
  let (places, rest) := match rest with
    | '.' :: rest => (rest.takeWhile Char.isDigit, rest.dropWhile Char.isDigit)
    | rest => ([], rest)
  let exponent : Option Int := match rest with
    | [] => some 0
    | c :: rest => if c == 'e' || c == 'E' then readExponent? rest else none
  if whole.isEmpty && places.isEmpty then none
  else exponent.map fun e =>
    (Digits.mk (natOfDigits (whole ++ places)) (e - (places.length : Int))).toFloat

/-- The number that a text writes. -/
def read? (s : String) : Option Float :=
  let (negative, cs) := match s.toList with
    | '-' :: cs => (true, cs)
    | '+' :: cs => (false, cs)
    | cs => (false, cs)
  let size := match String.ofList cs with
    | "nan" => some (0.0 / 0.0)
    | "inf" => some (1.0 / 0.0)
    | _ => readUnsigned? cs
  size.map fun x => if negative then -x else x

end Justfile.Decimal
