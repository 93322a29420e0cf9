import Reckon.Double.Exact
import Reckon.Double.Spelling
/-!
# Numbers as they are given

A number is given either as an integer of any size or as a double.  The
calculator works on doubles; an integer becomes the nearest one, unless it is
beyond their range.  Integers with very many decimal digits are neither read
nor written.
-/

namespace Reckon

/-- A number as a caller or a settings file gives it. -/
inductive Number where
  | integer (n : Int)
  | double (x : Float)
deriving DecidableEq

namespace Number

/-- How many decimal digits of an integer are read or written at most. -/
def digitLimit : Nat := 4300

/-- A number is written unless it is an integer with too many digits. -/
def isWritable : Number → Bool
  | .integer n => n.natAbs < Nat.pow 10 digitLimit
  | .double _ => true

/-- The double nearest to a number; `none` for an integer out of range. -/
def toDouble? : Number → Option Float
  | .integer n => Double.ofInteger? n
  | .double x => some x

/-- Two numbers are equal in value; an integer and a double are compared
exactly. -/
def equal : Number → Number → Bool
  | .integer m, .integer n => m == n
  | .integer m, .double y => Double.equalsInteger y m
  | .double x, .integer n => Double.equalsInteger x n
  | .double x, .double y => x == y

/-- The text of a number. -/
def text : Number → String
  | .integer n => toString n
  | .double x => Double.text x

end Number

end Reckon
