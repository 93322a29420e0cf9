import Reckon.Cursor
import Reckon.Datum.Merge
import Reckon.Datum.Show
import Reckon.Diagnostic
import Reckon.Text.Upper
/-!
# Settings and their validation

Settings are a mapping with the sections `parser`, `variables`, `output` and
`logging`.  What a user gives is laid over the defaults and then validated.
Validation checks the parts that the calculator uses, in a fixed order,
normalises two of them (absent variables become an empty mapping, the logging
level its upper-case text) and leaves everything else as it is.
-/

namespace Reckon

/-- What is wrong with settings. -/
inductive SettingsFault where
  /-- A part that must be there is missing. -/
  | missing (key : String)
  | notMapping (part : String)
  | depth (given : Datum)
  | bindings
  | variableName (name : Scalar)
  | variableValue (name : String) (given : Datum)
  | precision (given : Datum)
  | level (name : Scalar)
  /-- The settings are no YAML, by the report of their reader. -/
  | unreadable (report : String)
  /-- What would have to be shown holds an integer with too many digits. -/
  | unwritable

namespace SettingsFault

/-- The wording of a fault. -/
def message : SettingsFault → String
  | .missing key => Text.quoted key
  | .notMapping part => part ++ " must be a mapping"
  | .depth given => "parser.max_depth must be a positive integer, got " ++ given.describe
  | .bindings => "variables must be a mapping of name to number"
  | .variableName name => "variable name " ++ name.describe ++ " must be lowercase letters only"
  | .variableValue name given =>
    "variable " ++ Text.quoted name ++ " must be a number, got " ++ given.describe
  | .precision given =>
    "output.precision must be a non-negative integer, got " ++ given.describe
  | .level name => "logging.level " ++ name.describe ++ " is not a logging level"
  | .unreadable report => "Invalid YAML in " ++ report
  | .unwritable =>
    "Exceeds the limit (" ++ toString Number.digitLimit
      ++ " digits) for integer string conversion; "
      ++ "use sys.set_int_max_str_digits() to increase the limit"

/-- The diagnostic of a fault.  Settings have no places to show. -/
def diagnostic (f : SettingsFault) : Diagnostic where
  category := .kind .settings
  message := f.message

end SettingsFault

namespace Settings

/-- The value of a named entry. -/
def find? (name : String) (es : Entries) : Option Datum :=
  Association.get? (.text name) es

/-- Gives a named entry a value. -/
def withEntry (name : String) (d : Datum) (es : Entries) : Entries :=
  Association.put (.text name) d es

/-- The settings that hold when nothing is said. -/
def defaults : Entries :=
  [(.text "parser", .mapping [(.text "max_depth", .ofInt 100)]),
   (.text "variables", .mapping []),
   (.text "output", .mapping [(.text "precision", .nothing)]),
   (.text "logging", .mapping [(.text "level", .ofText "WARNING")])]

/-- The names of the logging levels. -/
def levelNames : List String :=
  ["CRITICAL", "FATAL", "ERROR", "WARN", "WARNING", "INFO", "DEBUG", "NOTSET"]

/-- Refuses settings with a fault that shows a datum, which must be writable. -/
def refuse {α : Type} (shown : Datum) (f : SettingsFault) : Except SettingsFault α :=
  if shown.isWritable then .error f else .error .unwritable

/-- A part that must be there. -/
def required (name : String) (es : Entries) : Except SettingsFault Datum :=
  match find? name es with
  | some d => .ok d
  | none => .error (.missing name)

/-- A section, which must be a mapping. -/
def part (name : String) (es : Entries) : Except SettingsFault Entries := do
  match (← required name es).entries? with
  | some inner => .ok inner
  | none => .error (.notMapping name)

/-- A depth limit is a positive integer; a truth value is none. -/
def isDepth : Datum → Bool
  | .scalar (.number (.integer n)) => 1 ≤ n
  | _ => false

/-- A precision is nothing, or an integer that is not negative; the truth
values count as 0 and 1. -/
def isPrecision : Datum → Bool
  | .scalar .nothing => true
  | .scalar (.boolean _) => true
  | .scalar (.number (.integer n)) => 0 ≤ n
  | _ => false

/-- A name of a variable has small letters only, and at least one. -/
def isVariableName (name : String) : Bool :=
  !name.isEmpty && name.toList.all Cursor.isAlphabetic

/-- Checks the variables in order: first the name, then the value. -/
def checkVariables : Entries → Except SettingsFault Unit
  | [] => .ok ()
  | (.text name, value) :: rest =>
    if isVariableName name then
      match value with
      | .scalar (.number _) => checkVariables rest
      | other => refuse other (.variableValue name other)
    else .error (.variableName (.text name))
  | (name, _) :: _ => refuse (.scalar name) (.variableName name)

/-- The variables of settings.  Absent or void, they are none at all. -/
def bindings (es : Entries) : Except SettingsFault Entries :=
  match find? "variables" es with
  | none => .ok []
  | some d =>
    if d.isVoid then .ok []
    else
      match d.entries? with
      | some vars => .ok vars
      | none => .error .bindings

/-- The upper-case text of a datum. -/
def capitals : Datum → Scalar
  | .scalar (.illFormed points) => .illFormed (points.flatMap Text.upperPoint)
  | given => .text (Text.upper given.plain)

/-- The logging level in its normal form: the upper-case text of what is given,
which must be one of the names. -/
def level (logging : Entries) : Except SettingsFault String := do
  let given := (find? "level" logging).getD (.ofText "WARNING")
  if !given.isWritable then throw .unwritable
  match capitals given with
  | .text name => if name ∈ levelNames then return name else throw (.level (.text name))
  | other => throw (.level other)

/-- Settings that the calculator can use, in normal form. -/
def validate (es : Entries) : Except SettingsFault Entries := do
  let parser ← part "parser" es
  let output ← part "output" es
  let logging ← part "logging" es
  let depth := (find? "max_depth" parser).getD .nothing
  if !isDepth depth then refuse depth (.depth depth)
  let vars ← bindings es
  checkVariables vars
  let precision := (find? "precision" output).getD .nothing
  if !isPrecision precision then refuse precision (.precision precision)
  let name ← level logging
  return withEntry "logging" (.mapping (withEntry "level" (.ofText name) logging))
    (withEntry "variables" (.mapping vars) es)

end Settings

end Reckon
