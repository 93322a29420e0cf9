import Reckon.Double.Numeral
import Reckon.Moment
/-!
# Timestamps of YAML 1.1

A date is written with four, two and two digits and dashes between them.
Before a time of day the month and the day can have one digit.  The letter T
or blanks stand before the time, in which only the hour can have one digit; a
fraction of a second and the distance from universal time may follow.
-/

namespace Reckon.Yaml.Timestamp

/-- A number of at least and at most so many digits, as many as there are, and
what follows it. -/
def number? (least most : Nat) (cs : List Char) : Option (Nat × List Char) :=
  let digits := (cs.take most).takeWhile fun c => (Double.digit? c).isSome
  if digits.length < least then none
  else (Double.natOfDigits? digits).map fun n => (n, cs.drop digits.length)

/-- What follows a character. -/
def past? (c : Char) : List Char → Option (List Char)
  | [] => none
  | d :: cs => if d = c then some cs else none

/-- A blank inside a timestamp. -/
def isBlank (c : Char) : Bool :=
  c == ' ' || c == '\t'

/-- What follows the separator before a time: one letter, or blanks. -/
def pastSeparator? : List Char → Option (List Char)
  | 'T' :: cs | 't' :: cs => some cs
  | c :: cs => if isBlank c then some (cs.dropWhile isBlank) else none
  | [] => none

/-- The millionths in the fraction of a second; further digits do not count. -/
def micros (digits : List Char) : Nat :=
  let six := digits.take 6
  (Double.natOfDigits? six).getD 0 * Nat.pow 10 (6 - six.length)

/-- The fraction of a second, if one follows. -/
def fraction : List Char → Nat × List Char
  | '.' :: cs =>
    let digits := cs.takeWhile fun c => (Double.digit? c).isSome
    (micros digits, cs.drop digits.length)
  | cs => (0, cs)

/-- Hours and perhaps minutes by which a clock is ahead. -/
def span? (cs : List Char) : Option Nat := do
  let (hours, cs) ← number? 1 2 cs
  match cs with
  | [] => some (60 * hours)
  | _ =>
    let (minutes, cs) ← number? 2 2 (← past? ':' cs)
    if cs.isEmpty then some (60 * hours + minutes) else none

/-- The minutes by which a clock is ahead: the rest of a timestamp. -/
def ahead? (cs : List Char) : Option (Option Int) :=
  match cs, cs.dropWhile isBlank with
  | [], _ => some none
  | _, ['Z'] => some (some 0)
  | _, '+' :: cs => (span? cs).map fun n => some (n : Int)
  | _, '-' :: cs => (span? cs).map fun n => some (-(n : Int))
  | _, _ => none

/-- The time of day behind its separator. -/
def clockTime? (cs : List Char) : Option ClockTime := do
  let (hour, cs) ← number? 1 2 cs
  let (minute, cs) ← number? 2 2 (← past? ':' cs)
  let (second, cs) ← number? 2 2 (← past? ':' cs)
  let (micros, cs) := fraction cs
  return ⟨hour, minute, second, micros, ← ahead? cs⟩

/-- The moment that a text looks like. -/
def moment? (cs : List Char) : Option Moment := do
  let (year, rest) ← number? 4 4 cs
  let (month, rest) ← number? 1 2 (← past? '-' rest)
  let (day, rest) ← number? 1 2 (← past? '-' rest)
  if rest.isEmpty then
    if cs.length = 10 then some ⟨year, month, day, none⟩ else none
  else return ⟨year, month, day, ← clockTime? (← pastSeparator? rest)⟩

end Reckon.Yaml.Timestamp
