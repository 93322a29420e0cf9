import Reckon.Double.Exact
/-!
# Arithmetic that always has an answer

Division, powers, logarithms and rounding on doubles, with infinities and NaN
in place of failures.  Division by zero gives a signed infinity; a power
follows the special values of IEEE 754 except that an undefined case (NaN as
the exponent, one to an infinite power) is NaN; rounding takes halves upwards.
-/

namespace Reckon

/-- How an elementary function comes out: with a value, or with one of two
refusals. -/
inductive Outcome where
  | value (x : Float)
  /-- Finite operands with a result beyond the range. -/
  | overflow
  /-- Operands without a result, such as zero to a negative power, or a negative
  base with a fractional exponent. -/
  | domain
deriving DecidableEq

/-- The elementary functions on which the calculator rests. -/
structure Elementary where
  sqrt : Float → Outcome
  sin : Float → Outcome
  cos : Float → Outcome
  tan : Float → Outcome
  asin : Float → Outcome
  acos : Float → Outcome
  atan : Float → Outcome
  log : Float → Outcome
  power : Float → Float → Outcome

/-- A function on doubles as an elementary one.  NaN out of a number means
operands without a result, and an infinity out of a finite number a result
beyond the range. -/
def Outcome.of (f : Float → Float) (x : Float) : Outcome :=
  let r := f x
  if r.isNaN && !x.isNaN then .domain
  else if r.isInf && x.isFinite then .overflow
  else .value r

/-- What the calculator makes of an elementary function: NaN where there is no
result, infinity where the result is beyond the range. -/
def guarded (f : Float → Outcome) (x : Float) : Float :=
  match f x with
  | .value r => r
  | .domain => Double.notANumber
  | .overflow => Double.infinity

/-- The quotient of two doubles; division by a zero is refused. -/
def quotient? (a b : Float) : Option Float :=
  if b == 0.0 then none else some (a / b)

/-- Division.  By a zero it gives an infinity with the sign that the two signs
make, and NaN if there is nothing or no number to divide. -/
def divide (a b : Float) : Float :=
  match quotient? a b with
  | some q => q
  | none =>
    if a == 0.0 || a.isNaN then Double.notANumber
    else Double.withSignOf Double.infinity a * Double.withSignOf 1.0 b

/-- The power of two doubles of which one is not finite. -/
def extendedPower (a b : Float) : Float :=
  if a.isNaN then (if b == 0.0 then 1.0 else a)
  else if b.isNaN then (if a == 1.0 then 1.0 else b)
  else if a.isInf then
    if 0.0 < b then (if Double.isOddInteger b then a else a.abs)
    else if b == 0.0 then 1.0
    else if Double.isOddInteger b then Double.withSignOf 0.0 a
    else 0.0
  else if a.abs == 1.0 then 1.0
  else if 0.0 < b then (if 1.0 < a.abs then b else 0.0)
  else if a.abs < 1.0 then -b
  else 0.0

/-- The elementary power.  Between finite doubles an infinite result means a
zero base or an overflow, and NaN a negative base with a fractional exponent. -/
def elementaryPower (a b : Float) : Outcome :=
  if a.isFinite && b.isFinite then
    let r := a.pow b
    if r.isNaN then .domain
    else if r.isInf then (if a == 0.0 then .domain else .overflow)
    else .value r
  else .value (extendedPower a b)

/-- The power that the calculator computes from an elementary one: anything to
the power zero is 1; an undefined power is NaN; an overflow is an infinity,
negative for an odd power of a negative base; and zero to a negative power is
an infinity that keeps the sign of the zero when the exponent is odd. -/
def powerBy (elementary : Float → Float → Outcome) (a b : Float) : Float :=
  if b == 0.0 then 1.0
  else if b.isNaN || (a.abs == 1.0 && b.isInf) then Double.notANumber
  else
    match elementary a b with
    | .value r => r
    | .overflow =>
      if a < 0.0 && Double.isOddInteger b then -Double.infinity else Double.infinity
    | .domain =>
      if a == 0.0 then
        if Double.isOddInteger b then Double.withSignOf Double.infinity a else Double.infinity
      else Double.notANumber

/-- The power of two doubles. -/
def power (a b : Float) : Float :=
  powerBy elementaryPower a b

/-- The natural logarithm that the calculator computes from an elementary one:
of zero it is negative infinity. -/
def logarithmBy (elementary : Float → Outcome) (x : Float) : Outcome :=
  if x == 0.0 then .value (-Double.infinity) else elementary x

/-- Rounds to the nearest integer, a half upwards.  NaN becomes zero, the
infinities stay, and a zero result is positive. -/
def roundHalfUp (x : Float) : Float :=
  if x.isNaN then 0.0
  else
    match Double.floor? x with
    | none => x
    | some n => Float.ofInt (if 0.5 ≤ x - Float.ofInt n then n + 1 else n)

/-- The ratio of a circle's circumference to its diameter. -/
def pi : Float := 3.141592653589793

/-- The base of the natural logarithm. -/
def euler : Float := 2.718281828459045

/-- An angle in radians, in degrees. -/
def degrees (x : Float) : Float := x * (180.0 / pi)

/-- An angle in degrees, in radians. -/
def radians (x : Float) : Float := x * (pi / 180.0)

/-- The elementary functions of the machine. -/
def Elementary.ofMachine : Elementary where
  sqrt := .of Float.sqrt
  sin := .of Float.sin
  cos := .of Float.cos
  tan := .of Float.tan
  asin := .of Float.asin
  acos := .of Float.acos
  atan := .of Float.atan
  log := .of Float.log
  power := elementaryPower

end Reckon
