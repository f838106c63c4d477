import ColoredCtl.Number.Binary64

/-!
Decimal texts of binary64 numbers.

`Decimal.shortest` picks, among the decimals that read back as the given value, one with the fewest
digits, and among those the nearest; a `Tie` decides between two that are equally near. That and how
the digits are then laid out is a `Layout`: display text goes up in a tie, never uses an exponent and
drops a fraction of zero, document text goes to the even digit, keeps a fraction and turns to
scientific form for very small and very large values.
-/

namespace ColoredCtl

/-- The number `digits * 10 ^ exponent`. -/
structure Decimal where
  digits : Nat
  exponent : Int
deriving DecidableEq, Repr

/-- Which of two equally near decimals of a grid is taken. -/
inductive Tie where
  /-- The larger one. -/
  | up
  /-- The one with the even last digit. -/
  | even
deriving DecidableEq, Repr

/-- Whether the smaller of two neighbours on a grid, `units` steps above zero, wins a tie. -/
def Tie.takesLower : Tie → (units : Nat) → Bool
  | .up, _ => false
  | .even, units => units % 2 == 0

namespace Decimal

/-- Number of decimal digits; one for zero. -/
def digitCount (n : Nat) : Nat := (Nat.toDigits 10 n).length

/-- The exponent of the leading digit of the positive fraction `num / den`. -/
def leadingExponent (num den : Nat) : Int :=
  if den ≤ num then (digitCount (num / den) : Int) - 1
  else -(digitCount ((den + num - 1) / num - 1) : Int)

/-- A positive value with the ends of the interval of reals that round to it, all in units of
`1 / den`. The ends belong to the interval when `closed` holds. -/
structure Interval where
  low : Nat
  value : Nat
  high : Nat
  den : Nat
  closed : Bool
deriving Repr

/-- The interval of a finite nonzero magnitude. The gap below a power of two is half the gap
above it. -/
def Interval.ofMagnitude (magnitude : Nat) : Interval :=
  let field : Nat := magnitude / 0x10000000000000
  let fraction : Nat := magnitude % 0x10000000000000
  let significand := if field = 0 then fraction else 0x10000000000000 + fraction
  let q : Int := if field = 0 then -1074 else (field : Int) - 1075
  let below := if fraction = 0 && decide (1 < field) then 1 else 2
  let up := Nat.pow 2 (q - 2).toNat
  { low := (4 * significand - below) * up
    value := 4 * significand * up
    high := (4 * significand + 2) * up
    den := Nat.pow 2 (2 - q).toNat
    closed := significand % 2 = 0 }

/-- Whether the decimal lies in the interval. -/
def Interval.holds (i : Interval) (x : Decimal) : Bool :=
  let point := x.digits * Nat.pow 10 x.exponent.toNat * i.den
  let grid := Nat.pow 10 (-x.exponent).toNat
  let low := i.low * grid
  let high := i.high * grid
  if i.closed then decide (low ≤ point) && decide (point ≤ high)
  else decide (low < point) && decide (point < high)

/-- The decimals of a grid just below (or at) and just above the value, the nearer first. -/
def Interval.neighbours (i : Interval) (tie : Tie) (exponent : Int) : List Decimal :=
  let num := i.value * Nat.pow 10 (-exponent).toNat
  let den := i.den * Nat.pow 10 exponent.toNat
  let below : Decimal := ⟨num / den, exponent⟩
  let above : Decimal := ⟨num / den + 1, exponent⟩
  let twice := 2 * (num % den)
  if twice < den || (twice = den && tie.takesLower (num / den)) then [below, above]
  else [above, below]

/-- The first decimal that reads back, from coarse grids to fine ones. -/
def Interval.search (i : Interval) (tie : Tie) (leading : Int) : (places fuel : Nat) → Decimal
  | places, 0 => ⟨0, leading - places⟩
  | places, fuel + 1 =>
    match (i.neighbours tie (leading - places)).find? i.holds with
    | some x => x
    | none => i.search tie leading (places + 1) fuel

/-- Moves trailing zeros of the digits into the exponent. -/
def trim : (fuel : Nat) → Decimal → Decimal
  | 0, x => x
  | fuel + 1, x =>
    if x.digits ≠ 0 && x.digits % 10 = 0 then trim fuel ⟨x.digits / 10, x.exponent + 1⟩ else x

/-- The shortest decimal that reads back as the finite nonzero magnitude; seventeen digits always
suffice. -/
def shortest (tie : Tie) (magnitude : Nat) : Decimal :=
  let i := Interval.ofMagnitude magnitude
  trim 20 (i.search tie (leadingExponent i.value i.den) 0 18)

/-- The digits with a decimal point and no exponent; `whole` is appended to an integer. -/
def positional (whole : String) (x : Decimal) : String :=
  let digits := toString x.digits
  if 0 ≤ x.exponent then digits ++ "".pushn '0' x.exponent.toNat ++ whole
  else
    let places := (-x.exponent).toNat
    if places < digits.length then
      let head := digits.length - places
      String.ofList (digits.toList.take head) ++ "." ++ String.ofList (digits.toList.drop head)
    else "0." ++ "".pushn '0' (places - digits.length) ++ digits

/-- One digit, the others behind a point, and a signed power of ten. -/
def scientific (x : Decimal) : String :=
  let digits := (toString x.digits).toList
  let power := x.exponent + digits.length - 1
  let fraction := if digits.length ≤ 1 then "" else "." ++ String.ofList (digits.drop 1)
  let sign := if 0 ≤ power then "e+" else "e-"
  String.ofList (digits.take 1) ++ fraction ++ sign ++ toString power.natAbs

end Decimal

/-- How a number is written. -/
structure Layout where
  /-- Which of two equally near digit strings is written. -/
  tie : Tie
  /-- Written after a number without fraction digits. -/
  whole : String
  /-- The leading exponents that are written without a power of ten. -/
  plain : Int → Bool

namespace Layout

/-- The texts of messages and formulas: ties go up, never a power of ten, no fraction when there is
none. -/
def display : Layout := { tie := .up, whole := "", plain := fun _ => true }

/-- The texts of documents: ties go to the even digit, a fraction always, powers of ten outside of
`10 ^ -5` to `10 ^ 15`. -/
def document : Layout :=
  { tie := .even, whole := ".0", plain := fun e => decide (-5 ≤ e) && decide (e ≤ 15) }

/-- The text of a finite value. -/
def write (layout : Layout) (x : Binary64) : String :=
  let sign := if x.negative then "-" else ""
  if x.magnitude = 0 then sign ++ "0" ++ layout.whole
  else
    let d := Decimal.shortest layout.tie x.magnitude
    let leading := d.exponent + Decimal.digitCount d.digits - 1
    sign ++ (if layout.plain leading then d.positional layout.whole else d.scientific)

end Layout

/-- Display text, with words for the values that have no digits. -/
def Binary64.text (x : Binary64) : String :=
  if x.isNaN then "NaN"
  else if x.isFinite then Layout.display.write x
  else if x.negative then "-inf" else "inf"

end ColoredCtl
