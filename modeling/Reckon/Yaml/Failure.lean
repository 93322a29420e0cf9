import Reckon.Moment
import Reckon.Number
import Reckon.Text.Utf8
/-!
# Why a YAML text cannot be read

A text can be malformed, or well formed with a scalar that looks like a number
or a moment, or names a character, and yet stands for none.  Its bytes can be ill-formed
too, which shows only where the reading comes to them.
-/

namespace Reckon.Yaml

/-- Why a scalar stands for nothing. -/
inductive ScalarFault where
  /-- A number in some base without any digit. -/
  | noDigits (base : Nat)
  /-- An integer with more decimal digits than are read. -/
  | tooManyDigits (count : Nat)
  /-- A double in base 60 with a part beyond the range of doubles. -/
  | tooLarge
  /-- A code point beyond the last one. -/
  | noCharacter
  /-- A code point beyond the signed words of 32 bits. -/
  | noWord
  /-- A moment that does not exist. -/
  | moment (f : MomentFault)
deriving DecidableEq, Repr

/-- The wording of a fault of a scalar. -/
def ScalarFault.message : ScalarFault → String
  | .noDigits base => "invalid literal for int() with base " ++ toString base ++ ": ''"
  | .tooManyDigits count =>
    "Exceeds the limit (" ++ toString Number.digitLimit
      ++ " digits) for integer string conversion: value has " ++ toString count
      ++ " digits; use sys.set_int_max_str_digits() to increase the limit"
  | .tooLarge => "int too large to convert to float"
  | .noCharacter => "chr() arg not in range(0x110000)"
  | .noWord => "Python int too large to convert to C int"
  | .moment f => f.message

/-- Why a text cannot be read. -/
inductive Failure where
  | malformed
  | scalar (f : ScalarFault)
  | encoding (e : Text.Utf8Error)
deriving DecidableEq, Repr

/-- What comes of reading. -/
abbrev Reading := Except Failure

end Reckon.Yaml
