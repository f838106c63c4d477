/-!
Binary64 numbers, held as their 64 bits.

Equality of two values is equality of the bits, so the two zeros differ and a NaN equals itself.
The numeric order is a separate relation: `lt`, `le` and `same` compare as IEEE 754 does. A decimal
becomes the nearest value, a half going to the even neighbour; the rounding is exact arithmetic on
natural numbers.
-/

namespace ColoredCtl

/-- A binary64 number. Two of them are equal exactly when their bits are. -/
structure Binary64 where
  bits : UInt64
deriving DecidableEq, Hashable, Repr, Inhabited

namespace Binary64

/-- The bits without the sign. -/
def magnitude (x : Binary64) : Nat := x.bits.toNat % 0x8000000000000000

/-- The sign bit. -/
def negative (x : Binary64) : Bool := 0x8000000000000000 ≤ x.bits.toNat

/-- The magnitude of the infinities; every larger magnitude is a NaN. -/
def infiniteMagnitude : Nat := 0x7ff0000000000000

def isNaN (x : Binary64) : Bool := infiniteMagnitude < x.magnitude

def isFinite (x : Binary64) : Bool := x.magnitude < infiniteMagnitude

/-- The value with the given sign and magnitude. -/
def ofMagnitude (negative : Bool) (magnitude : Nat) : Binary64 :=
  ⟨(if negative then 0x8000000000000000 + magnitude else magnitude).toUInt64⟩

def nan : Binary64 := ofMagnitude false (infiniteMagnitude + 0x8000000000000)

def infinity (negative : Bool) : Binary64 := ofMagnitude negative infiniteMagnitude

def zero (negative : Bool) : Binary64 := ofMagnitude negative 0

/-- Position on the number line: magnitudes grow with the value, and both zeros are at 0. -/
def rank (x : Binary64) : Int := if x.negative then -(x.magnitude : Int) else x.magnitude

/-- Both are numbers, so that they can be compared. -/
def comparable (x y : Binary64) : Bool := !x.isNaN && !y.isNaN

def lt (x y : Binary64) : Bool := comparable x y && decide (x.rank < y.rank)

def le (x y : Binary64) : Bool := comparable x y && decide (x.rank ≤ y.rank)

/-- Numeric equality: the zeros are the same number and a NaN is not the same as anything. -/
def same (x y : Binary64) : Bool := comparable x y && decide (x.rank = y.rank)

/-- Quotient rounded to the nearest integer, a half to the even one. -/
def roundDiv (num den : Nat) : Nat :=
  let quotient := num / den
  let twice := 2 * (num % den)
  if twice < den then quotient
  else if den < twice then quotient + 1
  else quotient + quotient % 2

/-- The fraction `num / den` times `2 ^ exponent`, as a numerator and a denominator. -/
def scale (num den : Nat) (exponent : Int) : Nat × Nat :=
  (num * Nat.pow 2 exponent.toNat, den * Nat.pow 2 (-exponent).toNat)

/-- The exponent of the last place of the value nearest to `num / den`: the significand has 53
bits, or fewer at the lowest exponent. -/
def unitExponent (num den : Nat) : Int :=
  let guess : Int := (num.log2 : Int) - den.log2 - 53
  let (n, d) := scale num den (-guess)
  max (-1074) (if 0x20000000000000 ≤ n / d then guess + 1 else guess)

/-- The magnitude nearest to the positive fraction `num / den`. A significand that rounds up to the
next power of two carries into the exponent field. -/
def roundFraction (num den : Nat) : Nat :=
  let q := unitExponent num den
  let (n, d) := scale num den (-q)
  min infiniteMagnitude ((q + 1074).toNat * 0x10000000000000 + roundDiv n d)

/-- The value nearest to `± mantissa * 10 ^ exponent`. -/
def ofDecimal (negative : Bool) (mantissa : Nat) (exponent : Int) : Binary64 :=
  let digits : Int := (Nat.toDigits 10 mantissa).length
  if mantissa = 0 || digits + exponent < -330 then zero negative
  else if 330 < digits + exponent then infinity negative
  else ofMagnitude negative (roundFraction (mantissa * Nat.pow 10 exponent.toNat) (Nat.pow 10 (-exponent).toNat))

/-- The value nearest to an integer. -/
def ofInt (n : Int) : Binary64 := ofDecimal (decide (n < 0)) n.natAbs 0

end Binary64

end ColoredCtl
