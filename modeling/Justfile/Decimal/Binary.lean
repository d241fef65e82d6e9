/-!
# Binary numbers and their decimal digits

A finite floating-point number is a whole number times a power of two. Its digits are found by
exact arithmetic on natural numbers.

* `Binary.shortest`: the fewest decimal digits that read back as the number.
* `roundDiv`: a quotient rounded to a whole number, a half to the even neighbour.
-/

namespace Justfile.Decimal

/-- A finite number that is not negative, `mantissa * 2 ^ exponent`. The number is `narrow` if its
lower neighbour is half as far away as its upper one. -/
structure Binary where
  mantissa : Nat
  exponent : Int
  narrow : Bool

/-- A decimal number that is not negative, `digits * 10 ^ exponent`. -/
structure Digits where
  digits : Nat
  exponent : Int

/-- A quotient rounded to a whole number, a half to the even neighbour. -/
def roundDiv (num den : Nat) : Nat :=
  let q := num / den
  let r := num % den
  if 2 * r < den then q
  else if den < 2 * r then q + 1
  else q + q % 2

/-- **The rounded quotient is within half a unit of the exact one.** -/
theorem roundDiv_near (num den : Nat) (h : 0 < den) :
    2 * (roundDiv num den * den) ≤ 2 * num + den ∧
      2 * num ≤ 2 * (roundDiv num den * den) + den := by
  have e : num / den * den + num % den = num := Nat.div_add_mod' num den
  have l : num % den < den := Nat.mod_lt _ h
  unfold roundDiv
  generalize num / den = q at *
  generalize num % den = r at *
  have step : (q + 1) * den = q * den + den := by rw [Nat.add_mul, Nat.one_mul]
  dsimp only
  split
  · omega
  · split
    · omega
    · rcases Nat.mod_two_eq_zero_or_one q with hq | hq <;> rw [hq]
      · rw [Nat.add_zero]; omega
      · omega

namespace Binary

/-- The number in the bits of a finite floating-point number, without its sign. -/
def ofBits (bits : UInt64) : Binary :=
  let e := ((bits >>> 52) &&& 0x7FF).toNat
  let f := (bits &&& 0xFFFFFFFFFFFFF).toNat
  if e == 0 then ⟨f, -1074, false⟩ else ⟨0x10000000000000 + f, (e : Int) - 1075, f == 0 && 1 < e⟩

/-- The numerator of the number as a fraction. -/
def num (x : Binary) : Nat :=
  x.mantissa * Nat.pow 2 x.exponent.toNat

/-- The denominator of the number as a fraction. -/
def den (x : Binary) : Nat :=
  Nat.pow 2 (-x.exponent).toNat

/-- How many decimal digits a natural number has. -/
def digitCount (n : Nat) : Nat :=
  (Nat.repr n).length

/-- The least power of ten above the number, for a number that is not zero. -/
def scale (x : Binary) : Int :=
  if x.den ≤ x.num then digitCount (x.num / x.den)
  else
    let d := digitCount (x.den / x.num)
    if x.num * Nat.pow 10 (d - 1) == x.den then 2 - d else 1 - d

/-- The order of a decimal number and `n * 2 ^ j`. -/
def compareScaled (d : Digits) (n : Nat) (j : Int) : Ordering :=
  compare (d.digits * Nat.pow 10 d.exponent.toNat * Nat.pow 2 (-j).toNat)
    (n * Nat.pow 2 j.toNat * Nat.pow 10 (-d.exponent).toNat)

/-- Whether a decimal number lies among those that are rounded to `x`: between the points halfway
to its neighbours, which themselves belong to an even mantissa. -/
def readsBack (x : Binary) (d : Digits) : Bool :=
  let low := if x.narrow then 4 * x.mantissa - 1 else 4 * x.mantissa - 2
  let fromLow := compareScaled d low (x.exponent - 2)
  let fromHigh := compareScaled d (4 * x.mantissa + 2) (x.exponent - 2)
  let ends := x.mantissa % 2 == 0
  (fromLow == .gt || (ends && fromLow == .eq)) && (fromHigh == .lt || (ends && fromHigh == .eq))

/-- The number divided by `10 ^ e`, as a fraction. -/
def scaled (x : Binary) (e : Int) : Nat × Nat :=
  (x.num * Nat.pow 10 (-e).toNat, x.den * Nat.pow 10 e.toNat)

/-- The multiple of `10 ^ e` next to the number that reads back as it, the nearer one of two. -/
def onGrid? (x : Binary) (e : Int) : Option Digits :=
  let (n, d) := x.scaled e
  let below : Digits := ⟨n / d, e⟩
  let above : Digits := ⟨n / d + 1, e⟩
  match x.readsBack below, x.readsBack above with
  | true, true => some ⟨roundDiv n d, e⟩
  | true, false => some below
  | false, true => some above
  | false, false => none

/-- The number rounded to a multiple of `10 ^ e`. -/
def rounded (x : Binary) (e : Int) : Digits :=
  let (n, d) := x.scaled e
  ⟨roundDiv n d, e⟩

/-- Digits without zeros at their end; `fuel` bounds how many are dropped. -/
def dropZeros : (fuel : Nat) → Digits → Digits
  | 0, d => d
  | fuel + 1, d =>
    if d.digits % 10 == 0 && d.digits != 0 then dropZeros fuel ⟨d.digits / 10, d.exponent + 1⟩
    else d

/-- The fewest decimal digits that read back as the number. Seventeen always suffice. -/
def shortest (x : Binary) : Digits :=
  if x.mantissa == 0 then ⟨0, 0⟩
  else
    let k := x.scale
    let found := (List.range 17).findSome? fun i => x.onGrid? (k - (i + 1 : Nat))
    dropZeros 20 (found.getD (x.rounded (k - 17)))

end Binary

end Justfile.Decimal
