/-!
# Doubles as exact numbers

A finite double is a signed integer times a power of two.  This module reads
that integer and that power off a `Float` and does the few exact things the
calculator needs: the floor, the test for a whole number, and comparison with
an integer.  Nothing here rounds.
-/

namespace Reckon.Double

open Float.Model (UnpackedFloat)

/-- The sign, mantissa and binary exponent of a finite double, zero having
mantissa 0; `none` for NaN and the infinities. -/
def parts? (x : Float) : Option (Bool × Nat × Int) :=
  match x.toModel.unpack with
  | .notANumber => none
  | .infinity _ => none
  | .zero s => some (s == .negative, 0, 0)
  | .finite s m e _ => some (s == .negative, m, e)

/-- A sign bit is set: also on a negative zero and on negative infinity. -/
def signed (x : Float) : Bool :=
  match x.toModel.unpack with
  | .notANumber => false
  | .infinity s => s == .negative
  | .zero s => s == .negative
  | .finite s _ _ _ => s == .negative

/-- An integer with the given sign. -/
def withSign (negative : Bool) (n : Nat) : Int :=
  if negative then -(n : Int) else n

/-- The greatest integer that is not above a finite double. -/
def floor? (x : Float) : Option Int :=
  (parts? x).map fun (negative, m, e) =>
    if 0 ≤ e then withSign negative (m <<< e.toNat)
    else withSign negative m / (Nat.pow 2 (-e).toNat : Int)

/-- The integer that a double denotes, when it denotes one. -/
def integer? (x : Float) : Option Int :=
  (parts? x).bind fun (negative, m, e) =>
    if 0 ≤ e then some (withSign negative (m <<< e.toNat))
    else if m % Nat.pow 2 (-e).toNat = 0 then
      some (withSign negative (m / Nat.pow 2 (-e).toNat))
    else none

/-- A double that denotes an odd integer. -/
def isOddInteger (x : Float) : Bool :=
  match integer? x with
  | some n => n % 2 == 1
  | none => false

/-- A double and an integer are the same number. -/
def equalsInteger (x : Float) (n : Int) : Bool :=
  integer? x == some n

/-- The double nearest to an integer, ties going to the even mantissa;
`none` when the integer is beyond the range of doubles. -/
def ofInteger? (n : Int) : Option Float :=
  let x := Float.ofInt n
  if x.isInf then none else some x

/-- Positive infinity. -/
def infinity : Float := 1.0 / 0.0

/-- The one NaN. -/
def notANumber : Float := 0.0 / 0.0

/-- The magnitude of `x` under the sign of `y`. -/
def withSignOf (x y : Float) : Float :=
  if signed y then -x.abs else x.abs

end Reckon.Double
