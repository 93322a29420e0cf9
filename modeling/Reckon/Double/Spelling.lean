import Reckon.Double.Shortest
/-!
# How a double is spelled

A double is written with the fewest digits that read back.  It is written
positionally, always with a point, while the exponent of its leading digit
lies in a window; outside of it with a signed power of ten of at least two
digits and no needless point.
-/

namespace Reckon.Double

/-- The choices of a spelling of doubles. -/
structure Spelling where
  /-- Least exponent of the leading digit that is written positionally. -/
  lowest : Int
  /-- Greatest exponent of the leading digit that is written positionally. -/
  highest : Int
  /-- Least number of digits of a power of ten. -/
  powerWidth : Nat
  infinity : String
  notANumber : String

/-- Positional from `0.0001` up to below `10^16`; otherwise as in `1.5e-05`
and `1e+16`. -/
def Spelling.plain : Spelling where
  lowest := -4
  highest := 15
  powerWidth := 2
  infinity := "inf"
  notANumber := "nan"

/-- The decimal digits of a natural number, most significant first. -/
def digitsOf (n : Nat) : List Char :=
  Nat.toDigits 10 n

/-- A list of characters filled up on the left to a least width. -/
def padLeft (width : Nat) (fill : Char) (cs : List Char) : List Char :=
  List.replicate (width - cs.length) fill ++ cs

/-- Positional writing of `digits · 10^exponent`: a point always stands
between two digits. -/
def positional (digits : List Char) (exponent : Int) : List Char :=
  if 0 ≤ exponent then digits ++ List.replicate exponent.toNat '0' ++ ['.', '0']
  else
    let places := (-exponent).toNat
    let padded := padLeft (places + 1) '0' digits
    padded.take (padded.length - places) ++ '.' :: padded.drop (padded.length - places)

/-- Writing with a power of ten, the point after the first digit and only
when digits follow. -/
def scientific (powerWidth : Nat) (digits : List Char) (exponent : Int) : List Char :=
  let power := exponent + (digits.length - 1 : Nat)
  let sign := if power < 0 then '-' else '+'
  let head := match digits with
    | d :: e :: rest => d :: '.' :: e :: rest
    | short => short
  head ++ 'e' :: sign :: padLeft powerWidth '0' (digitsOf power.natAbs)

/-- A positive double by its mantissa and exponent. -/
def Spelling.magnitude (s : Spelling) (mantissa : Nat) (exponent : Int) : List Char :=
  let d := shortest mantissa exponent
  let digits := digitsOf d.digits
  let leading := d.exponent + (digits.length - 1 : Nat)
  if s.lowest ≤ leading ∧ leading ≤ s.highest then positional digits d.exponent
  else scientific s.powerWidth digits d.exponent

/-- The text of a double.  NaN has no sign; zero keeps its sign. -/
def Spelling.write (s : Spelling) (x : Float) : String :=
  match x.toModel.unpack with
  | .notANumber => s.notANumber
  | .infinity sign => (if sign == .negative then "-" else "") ++ s.infinity
  | .zero sign => if sign == .negative then "-0.0" else "0.0"
  | .finite sign m e _ =>
    (if sign == .negative then "-" else "") ++ String.ofList (s.magnitude m e)

/-- The text of a double in the plain spelling. -/
def text (x : Float) : String :=
  Spelling.plain.write x

end Reckon.Double
