import Reckon.Datum
/-!
# Readers of settings files

A settings file is written in YAML.  What it holds is found out by a reader,
which is no part of the calculator, and of which nothing is assumed but that
the bytes of a file decide what it makes of them: a datum, a report that they
are no YAML, or whatever else can go wrong in it.
-/

namespace Reckon

/-- A fault that arises outside of the calculator, by its kind and its wording. -/
structure OutsideFault where
  kind : String
  message : String
  /-- It counts as the fault of a value that is of the wrong kind. -/
  concernsKind : Bool := false
deriving DecidableEq, Repr

namespace Settings

/-- Why a reader gives no datum. -/
inductive ReadFailure where
  /-- The bytes are no YAML.  The report names the file, so it is known only
  with the path of one. -/
  | malformed (report : String → String)
  /-- Something else went wrong in the reader. -/
  | fault (f : OutsideFault)

/-- A reader of YAML. -/
abbrev Reader := List UInt8 → Except ReadFailure Datum

end Settings

end Reckon
