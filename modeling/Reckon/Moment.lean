/-!
# Dates and times

A moment is a date of the Gregorian calendar, or such a date with a time of
day.  A time can say how far its clock is ahead of universal time; two moments
with such times are the same when they name the same instant, and all others
when they agree in every part.
-/

namespace Reckon

/-- A time of day. -/
structure ClockTime where
  hour : Nat
  minute : Nat
  second : Nat
  /-- Millionths of a second. -/
  micros : Nat
  /-- The minutes by which the clock is ahead of universal time, if known. -/
  ahead? : Option Int
deriving DecidableEq

/-- A date, perhaps with a time of day. -/
structure Moment where
  year : Nat
  month : Nat
  day : Nat
  time? : Option ClockTime
deriving DecidableEq

/-- What does not exist of what a moment names. -/
inductive MomentFault where
  | year (n : Nat)
  | month
  | day
  | hour
  | minute
  | second
  /-- A clock that is a day ahead or more, or behind. -/
  | ahead (minutes : Int)
deriving DecidableEq, Repr

namespace Moment

/-- A year with a 29th of February. -/
def isLeap (year : Nat) : Bool :=
  year % 4 == 0 && (year % 100 != 0 || year % 400 == 0)

/-- How many days the months of a year have. -/
def monthLengths (year : Nat) : List Nat :=
  [31, if isLeap year then 29 else 28, 31, 30, 31, 30, 31, 31, 30, 31, 30, 31]

/-- How many days the calendar counts up to a date. -/
def dayNumber (year month day : Nat) : Nat :=
  365 * year + (year - 1) / 4 - (year - 1) / 100 + (year - 1) / 400
    + ((monthLengths year).take (month - 1)).foldl (· + ·) 0 + day

/-- The minutes from the beginning of the calendar by universal time, if that
is known. -/
def universalMinutes? (m : Moment) : Option Int := do
  let t ← m.time?
  let ahead ← t.ahead?
  return (1440 * dayNumber m.year m.month m.day + 60 * t.hour + t.minute : Nat) - ahead

/-- Two moments are the same. -/
def same (a b : Moment) : Bool :=
  match a.universalMinutes?, b.universalMinutes? with
  | some m, some n =>
    m == n && a.time?.map (fun t => (t.second, t.micros)) == b.time?.map fun t => (t.second, t.micros)
  | none, none => a = b
  | _, _ => false

/-- Every moment is the same as itself. -/
theorem same_self (m : Moment) : m.same m = true := by
  unfold same
  cases m.universalMinutes? <;> simp

/-- What does not exist of a time. -/
def timeFault? (t : ClockTime) : Option MomentFault :=
  if 24 ≤ t.hour then some .hour
  else if 60 ≤ t.minute then some .minute
  else if 60 ≤ t.second then some .second
  else none

/-- What does not exist of a moment: first it is asked of the clock how far it
is ahead, then of the date and of the time from the largest part on. -/
def fault? (m : Moment) : Option MomentFault :=
  match m.time?.bind (·.ahead?) with
  | some ahead => if 1440 ≤ ahead.natAbs then some (.ahead ahead) else calendarFault?
  | none => calendarFault?
where
  calendarFault? : Option MomentFault :=
    if m.year = 0 then some (.year m.year)
    else if m.month = 0 then some .month
    else match (monthLengths m.year)[m.month - 1]? with
      | none => some .month
      | some days =>
        if m.day = 0 ∨ days < m.day then some .day else m.time?.bind timeFault?

/-! ## Texts -/

/-- The decimal digits of a number, filled up with zeros to a least width. -/
def padded (width n : Nat) : String :=
  let digits := toString n
  String.ofList (List.replicate (width - digits.length) '0') ++ digits

/-- A span of minutes, by days and seconds. -/
def describeSpan (minutes : Int) : String :=
  let days := minutes.fdiv 1440
  let seconds := 60 * minutes.fmod 1440
  let parts := (if days = 0 then [] else ["days=" ++ toString days])
    ++ (if seconds = 0 then [] else ["seconds=" ++ toString seconds])
  "datetime.timedelta(" ++ (if parts.isEmpty then "0" else ", ".intercalate parts) ++ ")"

/-- How far a clock is ahead of universal time. -/
def describeAhead (minutes : Int) : String :=
  if minutes = 0 then "datetime.timezone.utc"
  else "datetime.timezone(" ++ describeSpan minutes ++ ")"

/-- The text of a moment by its parts; seconds are left out when all that
follows of the time is zero. -/
def describe (m : Moment) : String :=
  let parts (ns : List Nat) : String := ", ".intercalate (ns.map toString)
  match m.time? with
  | none => "datetime.date(" ++ parts [m.year, m.month, m.day] ++ ")"
  | some t =>
    let fine :=
      if t.micros ≠ 0 then [t.second, t.micros] else if t.second ≠ 0 then [t.second] else []
    "datetime.datetime(" ++ parts ([m.year, m.month, m.day, t.hour, t.minute] ++ fine)
      ++ t.ahead?.elim "" (fun n => ", tzinfo=" ++ describeAhead n) ++ ")"

/-- The plain text of a moment. -/
def plain (m : Moment) : String :=
  let date := padded 4 m.year ++ "-" ++ padded 2 m.month ++ "-" ++ padded 2 m.day
  match m.time? with
  | none => date
  | some t =>
    let ahead (n : Int) : String :=
      (if n < 0 then "-" else "+") ++ padded 2 (n.natAbs / 60) ++ ":" ++ padded 2 (n.natAbs % 60)
    date ++ " " ++ padded 2 t.hour ++ ":" ++ padded 2 t.minute ++ ":" ++ padded 2 t.second
      ++ (if t.micros = 0 then "" else "." ++ padded 6 t.micros) ++ t.ahead?.elim "" ahead

/-- The word for the kind of a moment. -/
def kindName (m : Moment) : String :=
  if m.time?.isSome then "datetime" else "date"

end Moment

/-- The wording of a fault of a moment. -/
def MomentFault.message : MomentFault → String
  | .year n => "year " ++ toString n ++ " is out of range"
  | .month => "month must be in 1..12"
  | .day => "day is out of range for month"
  | .hour => "hour must be in 0..23"
  | .minute => "minute must be in 0..59"
  | .second => "second must be in 0..59"
  | .ahead minutes =>
    "offset must be a timedelta strictly between -timedelta(hours=24) and timedelta(hours=24), not "
      ++ Moment.describeSpan minutes ++ "."

end Reckon
