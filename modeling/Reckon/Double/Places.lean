import Reckon.Double.Exact
/-!
# Rounding to decimal places

The exact value of a double is moved to the nearest multiple of `10^-places`,
a tie going to the even multiple, and the double nearest to that multiple is
the answer.  Beyond 323 places a double has nothing left to round; below
−308 places every double rounds to zero.
-/

namespace Reckon.Double

/-- The integer nearest to `num / den`, a tie going to the even one. -/
def roundDiv (num den : Nat) : Nat :=
  let q := num / den
  match compare (2 * (num % den)) den with
  | .lt => q
  | .gt => q + 1
  | .eq => q + q % 2

/-- The multiple of `10^-places` nearest to the magnitude
`mantissa · 2^exponent`, in units of `10^-places`. -/
def nearestMultiple (mantissa : Nat) (exponent places : Int) : Nat :=
  roundDiv (mantissa * Nat.pow 2 exponent.toNat * Nat.pow 10 places.toNat)
    (Nat.pow 2 (-exponent).toNat * Nat.pow 10 (-places).toNat)

/-- The double nearest to `units · 10^-places`. -/
def ofUnits (units : Nat) (places : Int) : Float :=
  if 0 ≤ places then Float.ofScientific units true places.toNat
  else Float.ofScientific units false (-places).toNat

/-- A double rounded to a number of decimal places, which may be negative;
`none` when the rounded value is out of range.  The sign stays, on a zero
too. -/
def roundToPlaces? (x : Float) (places : Int) : Option Float :=
  match parts? x with
  | none => some x
  | some (negative, m, e) =>
    if 323 < places then some x
    else if places < -308 then some (0.0 * x)
    else
      let y := ofUnits (nearestMultiple m e places) places
      if y.isInf then none else some (if negative then -y else y)

end Reckon.Double
