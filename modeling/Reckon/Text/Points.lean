import Reckon.Text.Quoted
import Reckon.Text.Upper
/-!
# Code points that are no characters

An escape can put a code point into a text that no character has, the half of
a pair that stands for one.  Such a text is a list of code points.  In quotes
a half is written by its number; read as characters, two halves that fit
together are the character that they stand for, and any other half is
replaced.
-/

namespace Reckon.Text

/-- A code point inside the quote `q`. -/
def escapePoint (q : Char) (n : Nat) : List Char :=
  if n.isValidChar then escapeChar q (Char.ofNat n) else '\\' :: 'u' :: hexDigits 4 n

/-- Code points in quotes. -/
def quotedPoints (points : List Nat) : String :=
  let q := quoteFor ((points.filter fun n => n.isValidChar).map Char.ofNat)
  String.ofList (q :: points.flatMap (escapePoint q) ++ [q])

/-- The upper-case form of a code point. -/
def upperPoint (n : Nat) : List Nat :=
  if n.isValidChar then (upperChar (Char.ofNat n)).map Char.toNat else [n]

/-- The first half of a pair. -/
def isHighHalf (n : Nat) : Bool :=
  0xd800 ≤ n && n < 0xdc00

/-- The second half of a pair. -/
def isLowHalf (n : Nat) : Bool :=
  0xdc00 ≤ n && n < 0xe000

/-- Code points read as characters. -/
def charsOfPoints : List Nat → List Char
  | [] => []
  | [n] => [if n.isValidChar then Char.ofNat n else '\ufffd']
  | high :: low :: rest =>
    if isHighHalf high && isLowHalf low then
      Char.ofNat (0x10000 + 0x400 * (high - 0xd800) + (low - 0xdc00)) :: charsOfPoints rest
    else
      (if high.isValidChar then Char.ofNat high else '\ufffd') :: charsOfPoints (low :: rest)

end Reckon.Text
