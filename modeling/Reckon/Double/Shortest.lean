import Reckon.Double.Exact
/-!
# The shortest decimal that reads back

Every decimal inside the rounding interval of a double reads back as that
double.  `shortest` walks the decimal grids `10^e` from coarse to fine and
stops at the first that has a point in the interval; a grid has one exactly
when one of the two neighbours of the value on it lies inside, so only those
two are tried.  Of two hits the nearer is taken, and an exact tie goes to the
even digit.  All arithmetic is on natural numbers.
-/

namespace Reckon.Double

/-- The decimal `digits · 10^exponent`. -/
structure Decimal where
  digits : Nat
  exponent : Int
deriving Repr, DecidableEq

/-- The reals that round to `mantissa · 2^exponent`, in quarters of the last
binary place; the ends belong to it when `closed`. -/
structure Interval where
  low : Nat
  centre : Nat
  high : Nat
  closed : Bool
  quarter : Int

/-- The rounding interval of a positive double.  Below a power of two the
neighbour is only half as far away, except at the bottom of the range. -/
def Interval.of (mantissa : Nat) (exponent : Int) : Interval where
  low := if mantissa = Nat.pow 2 52 ∧ exponent ≠ -1074 then 4 * mantissa - 1 else 4 * mantissa - 2
  centre := 4 * mantissa
  high := 4 * mantissa + 2
  closed := mantissa % 2 = 0
  quarter := exponent - 2

/-- The fraction `2^binary / 10^decimal`, as numerator and denominator. -/
def scale (binary decimal : Int) : Nat × Nat :=
  (Nat.pow 2 binary.toNat * Nat.pow 10 (-decimal).toNat,
    Nat.pow 2 (-binary).toNat * Nat.pow 10 decimal.toNat)

/-- The point of the grid `10^e` to print for the interval, if the grid has one. -/
def Interval.hit? (i : Interval) (e : Int) : Option Nat :=
  let (num, den) := scale i.quarter e
  let below := i.centre * num / den
  let inLow := 0 < below ∧
    (if i.closed then i.low * num ≤ below * den else i.low * num < below * den)
  let inHigh :=
    if i.closed then (below + 1) * den ≤ i.high * num else (below + 1) * den < i.high * num
  if inLow then
    if inHigh then
      match compare (2 * i.centre * num) ((2 * below + 1) * den) with
      | .lt => some below
      | .gt => some (below + 1)
      | .eq => some (if below % 2 = 0 then below else below + 1)
    else some below
  else if inHigh then some (below + 1)
  else none

/-- The first grid, from `10^e` downwards, that has a point in the interval. -/
def Interval.scan (i : Interval) : Nat → Int → Decimal
  | 0, e => ⟨i.centre * (scale i.quarter e).1 / (scale i.quarter e).2, e⟩
  | steps + 1, e =>
    match i.hit? e with
    | some d => ⟨d, e⟩
    | none => i.scan steps (e - 1)

/-- A power of ten that is above `mantissa · 2^exponent`: 30103/100000 is just
more than the decimal logarithm of 2. -/
def ceilingExponent (mantissa : Nat) (exponent : Int) : Int :=
  ((mantissa.log2 + 1 : Int) + exponent) * 30103 / 100000 + 1

/-- The shortest decimal that reads back as the positive double
`mantissa · 2^exponent`.  Seventeen digits always suffice, and the first grid
is at most three places too coarse. -/
def shortest (mantissa : Nat) (exponent : Int) : Decimal :=
  (Interval.of mantissa exponent).scan 24 (ceilingExponent mantissa exponent)

end Reckon.Double
