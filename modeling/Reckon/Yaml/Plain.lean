import Reckon.Datum
import Reckon.Double.Numeral
import Reckon.Yaml.Failure
import Reckon.Yaml.Timestamp
/-!
# Plain scalars of YAML 1.1

A scalar without quotes is read as the kind of value that its text looks
like: nothing, a truth value, an integer in base 2, 8, 10, 16 or 60, a double,
a moment, or else a text.  A double needs a point, and its power of ten a sign, so
`1e3` is a text.  Underscores may group the digits of numbers.

What looks like a number is one, so a text such as `0x_`, where no digit is
left without the underscores, stands for nothing at all.
-/

namespace Reckon.Yaml

open Double (digit?)

/-- The words for nothing. -/
def nothingWords : List String :=
  ["", "~", "null", "Null", "NULL"]

/-- The words for true. -/
def trueWords : List String :=
  ["yes", "Yes", "YES", "true", "True", "TRUE", "on", "On", "ON"]

/-- The words for false. -/
def falseWords : List String :=
  ["no", "No", "NO", "false", "False", "FALSE", "off", "Off", "OFF"]

/-- The value of a hexadecimal digit. -/
def hexDigit? (c : Char) : Option Nat :=
  if 'a' ≤ c ∧ c ≤ 'f' then some (c.toNat - 'a'.toNat + 10)
  else if 'A' ≤ c ∧ c ≤ 'F' then some (c.toNat - 'A'.toNat + 10)
  else digit? c

/-- A character of the digits of a number in a base. -/
def isDigitIn (base : Nat) (c : Char) : Bool :=
  (hexDigit? c).any (· < base) || c == '_'

/-- The number that digits of a base denote, underscores left out. -/
def natInBase (base : Nat) (cs : List Char) : Nat :=
  (cs.filterMap hexDigit?).foldl (base * · + ·) 0

/-- The number that the characters behind the mark of a base denote, which
must hold a digit. -/
def marked (base : Nat) (cs : List Char) : Reading Nat :=
  if cs.all (· == '_') then throw (.scalar (.noDigits base)) else return natInBase base cs

/-- The number that decimal digits denote, if they are not too many. -/
def decimal (cs : List Char) : Reading Nat :=
  let count := (cs.filter (· ≠ '_')).length
  if Number.digitLimit < count then throw (.scalar (.tooManyDigits count)) else return natInBase 10 cs

/-- The parts of a text between the separators of a kind. -/
def splitAt (separator : Char) : List Char → List (List Char)
  | [] => [[]]
  | c :: rest =>
    match splitAt separator rest with
    | [] => [[c]]
    | first :: others => if c = separator then [] :: first :: others else (c :: first) :: others

/-- A part of a number in base 60: one or two digits, below 60. -/
def sixtieth? (cs : List Char) : Option Nat :=
  match cs with
  | [a] => digit? a
  | [a, b] => do
    let n := 10 * (← digit? a) + (← digit? b)
    if n < 60 then some n else none
  | _ => none

/-- A decimal digit and then decimal digits, perhaps grouped. -/
def isGroupedDigits (cs : List Char) : Bool :=
  (cs.head?.bind digit?).isSome && cs.all (isDigitIn 10)

/-- The parts of a number in base 60 by its colons: digits, and then parts
below 60. -/
def sexagesimal? (cs : List Char) : Option (List Char × List Nat) := do
  let first :: parts := splitAt ':' cs | none
  if isGroupedDigits first then return (first, ← parts.mapM sixtieth?) else none

/-- An integer without its sign; `none` if the text does not look like one. -/
def magnitude? (cs : List Char) : Option (Reading Nat) :=
  match cs with
  | '0' :: 'b' :: c :: digits =>
    if (c :: digits).all (isDigitIn 2) then some (marked 2 (c :: digits)) else none
  | '0' :: 'x' :: c :: digits =>
    if (c :: digits).all (isDigitIn 16) then some (marked 16 (c :: digits)) else none
  | '0' :: digits => if digits.all (isDigitIn 8) then some (marked 8 ('0' :: digits)) else none
  | _ => do
    let (first, parts) ← sexagesimal? cs
    return (decimal first).map fun n => parts.foldl (60 * · + ·) n

/-- A power of ten with its mandatory sign; nothing at all is the power 0. -/
def power? : List Char → Option Int
  | [] => some 0
  | e :: '+' :: digits =>
    if (e = 'e' ∨ e = 'E') ∧ !digits.isEmpty then (Double.natOfDigits? digits).map Int.ofNat
    else none
  | e :: '-' :: digits =>
    if (e = 'e' ∨ e = 'E') ∧ !digits.isEmpty then
      (Double.natOfDigits? digits).map fun n => -(n : Int)
    else none
  | _ => none

/-- A double without its sign, in decimal: digits, a point, and digits and a
power of ten that may be missing.  Without digits before the point there must
be one directly behind it and no sign. -/
def decimalDouble? (isSigned : Bool) (cs : List Char) : Option Float := do
  let whole := cs.takeWhile (isDigitIn 10)
  let '.' :: rest := cs.dropWhile (isDigitIn 10) | none
  let places := rest.takeWhile (isDigitIn 10)
  let power ← power? (rest.dropWhile (isDigitIn 10))
  if whole.isEmpty ∧ isSigned then none
  if !isGroupedDigits (if whole.isEmpty then places else whole) then none
  return Double.ofScaled (natInBase 10 (whole ++ places))
    (power - (places.filter (· ≠ '_')).length)

/-- A sum of parts, the first of the given weight and every next of sixty
times the weight before it; each weight is rounded to a double. -/
def sexagesimalSum (weight : Nat) (sum : Float) : List Float → Reading Float
  | [] => return sum
  | part :: parts =>
    match Double.ofInteger? weight with
    | some w => sexagesimalSum (60 * weight) (sum + part * w) parts
    | none => throw (.scalar .tooLarge)

/-- A double in base 60: parts before the point, the last with decimals. -/
def sexagesimalDouble? (cs : List Char) : Option (Reading Float) := do
  let '.' :: places := cs.dropWhile (· ≠ '.') | none
  if !places.all (isDigitIn 10) then none
  let (first, parts) ← sexagesimal? (cs.takeWhile (· ≠ '.'))
  let last :: higher := parts.reverse | none
  let decimals := (places.filter (· ≠ '_')).length
  let lowest := Double.ofScaled (last * Nat.pow 10 decimals + natInBase 10 places) (-decimals)
  return sexagesimalSum 1 0.0
    (lowest :: higher.map Float.ofNat ++ [Double.ofScaled (natInBase 10 first) 0])

/-- A double without its sign; `none` if the text does not look like one. -/
def doubleMagnitude? (isSigned : Bool) (cs : List Char) : Option (Reading Float) :=
  let word := String.ofList cs
  if word ∈ [".inf", ".Inf", ".INF"] then some (.ok Double.infinity)
  else if !isSigned ∧ word ∈ [".nan", ".NaN", ".NAN"] then some (.ok Double.notANumber)
  else ((decimalDouble? isSigned cs).map .ok).or (sexagesimalDouble? cs)

/-- The number that a plain scalar spells; `none` if it does not look like
one. -/
def number? (cs : List Char) : Option (Reading Number) :=
  let (negative, body) := Double.splitSign cs
  match doubleMagnitude? (body.length < cs.length) body with
  | some x => some (x.map fun x => .double (if negative then -x else x))
  | none =>
    (magnitude? body).map fun n => n.map fun n => .integer (if negative then -(n : Int) else n)

/-- The scalar that a plain text stands for.  The lone `=` and `<<` stand for
no value. -/
def plainScalar (cs : List Char) : Reading Scalar :=
  let word := String.ofList cs
  if word ∈ nothingWords then return .nothing
  else if word ∈ trueWords then return .boolean true
  else if word ∈ falseWords then return .boolean false
  else if word = "=" ∨ word = "<<" then throw .malformed
  else
    match number? cs, Timestamp.moment? cs with
    | some n, _ => n.map .number
    | none, some m =>
      match m.fault? with
      | some f => throw (.scalar (.moment f))
      | none => return .moment m
    | none, none => return .text word

end Reckon.Yaml
