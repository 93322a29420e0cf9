import Reckon.Evaluation
import Reckon.Grammar
import Reckon.Settings.Reader
import Reckon.Settings.Validation
import Reckon.Text.Utf8
/-!
# Everything that can go wrong

The faults of all parts of the calculator in one type, with the wording that
is shown.
-/

namespace Reckon

/-- A fault of any part. -/
inductive Fault where
  | parse (e : ParseError)
  | evaluation (e : EvalError)
  | refusal (r : Refusal)
  | settings (f : SettingsFault)
  /-- An assignment that is not of the form `name=value`. -/
  | assignment (text : String)
  /-- A value that leaves the range of doubles when it is rounded. -/
  | rounding
  | encoding (e : Text.Utf8Error)
  /-- A directory where a file was wanted. -/
  | directory (path : String)
  /-- A fault of the reader of settings files, or of the log. -/
  | outside (f : OutsideFault)
  /-- A datum made of parts where a key was wanted. -/
  | notAKey (given : Datum)
  /-- A datum that is no mapping where an entry of a given name was wanted. -/
  | noEntry (given : Datum)
  /-- A datum that is no mapping where all entries were wanted. -/
  | noEntries (given : Datum)
  /-- A limit with which no depth can be compared. -/
  | incomparable (limit : Datum)

/-- The wording of an encoding error names the first byte, or the range of
bytes when the broken sequence is longer. -/
def Text.Utf8Error.message (e : Text.Utf8Error) : String :=
  let place :=
    if e.count = 1 then
      "byte 0x" ++ String.ofList (Text.hexDigits 2 e.byte.toNat) ++ " in position "
        ++ toString e.position
    else "bytes in position " ++ toString e.position ++ "-" ++ toString (e.position + e.count - 1)
  let reason := match e.fault with
    | .start => "invalid start byte"
    | .continuation => "invalid continuation byte"
    | .truncated => "unexpected end of data"
  "'utf-8' codec can't decode " ++ place ++ ": " ++ reason

namespace Fault

/-- The diagnostic, for the faults of sources and of settings. -/
def diagnostic? : Fault → Option Diagnostic
  | .parse e => some e.diagnostic
  | .settings (.missing _) | .settings .unwritable => none
  | .settings f => some f.diagnostic
  | _ => none

/-- The wording of a fault. -/
def text : Fault → String
  | .parse e => e.diagnostic.text
  | .evaluation e => e.message
  | .refusal r => r.message
  | .settings f => f.message
  | .assignment given =>
    "bad variable assignment: " ++ Text.quoted given ++ " (expected name=value)"
  | .rounding => "rounded value too large to represent"
  | .encoding e => e.message
  | .directory path => "[Errno 21] Is a directory: " ++ Text.quoted path
  | .outside f => f.message
  | .notAKey given => "unhashable type: " ++ Text.quoted given.kindName
  | .noEntry (.list _) => "list indices must be integers or slices, not str"
  | .noEntry (.scalar (.text _)) | .noEntry (.scalar (.illFormed _)) =>
    "string indices must be integers, not 'str'"
  | .noEntry given => Text.quoted given.kindName ++ " object is not subscriptable"
  | .noEntries given => Text.quoted given.kindName ++ " object has no attribute 'items'"
  | .incomparable limit =>
    "'>' not supported between instances of 'int' and " ++ Text.quoted limit.kindName

end Fault

end Reckon
