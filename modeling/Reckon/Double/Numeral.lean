/-!
# Reading numerals

A numeral is a run of digits with at most one point in it; the double it
denotes is the one nearest to its decimal value, ties going to the even
mantissa.  A signed numeral may carry a power of ten.
-/

namespace Reckon.Double

/-- The value of a character that is an ASCII digit. -/
def digit? (c : Char) : Option Nat :=
  if '0' ≤ c ∧ c ≤ '9' then some (c.toNat - '0'.toNat) else none

/-- The number that a run of ASCII digits denotes; `none` if another character
is among them. -/
def natOfDigits? (cs : List Char) : Option Nat :=
  cs.foldl (fun acc c => do return 10 * (← acc) + (← digit? c)) (some 0)

/-- The decimal value of a numeral: its digits read as one number, and how many
of them stand behind the point.  A numeral has at least one digit and at most
one point. -/
def decimal? (cs : List Char) : Option (Nat × Nat) :=
  let whole := cs.takeWhile (· ≠ '.')
  let places := (cs.dropWhile (· ≠ '.')).drop 1
  if whole.isEmpty ∧ places.isEmpty then none
  else (natOfDigits? (whole ++ places)).map fun n => (n, places.length)

/-- The double nearest to a numeral. -/
def ofNumeral? (cs : List Char) : Option Float :=
  (decimal? cs).map fun (digits, places) => Float.ofScientific digits true places

/-- A text without its sign, and whether that was a minus. -/
def splitSign : List Char → Bool × List Char
  | '-' :: rest => (true, rest)
  | '+' :: rest => (false, rest)
  | cs => (false, cs)

/-- An optionally signed run of digits. -/
def readInteger? (cs : List Char) : Option Int :=
  match splitSign cs with
  | (_, []) => none
  | (negative, digits) => (natOfDigits? digits).map fun n => if negative then -n else n

/-- The double nearest to `digits · 10^power`. -/
def ofScaled (digits : Nat) (power : Int) : Float :=
  if 0 ≤ power then Float.ofScientific digits false power.toNat
  else Float.ofScientific digits true (-power).toNat

/-- The double that a text spells: a sign, then infinity, NaN, or a numeral
with an optional power of ten. -/
def read? (cs : List Char) : Option Float :=
  let (negative, body) := splitSign cs
  let magnitude : Option Float :=
    if body = ['i', 'n', 'f'] then some (1.0 / 0.0)
    else if body = ['n', 'a', 'n'] then some (0.0 / 0.0)
    else do
      let (digits, places) ← decimal? (body.takeWhile (· ≠ 'e'))
      let power ←
        match body.dropWhile (· ≠ 'e') with
        | [] => some 0
        | _ :: power => readInteger? power
      return ofScaled digits (power - places)
  magnitude.map fun x => if negative then -x else x

end Reckon.Double
