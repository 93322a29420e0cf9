import Reckon.Desk
import Reckon.Double.Places
import Reckon.Settings.Loading
/-!
# Calculations under settings

Settings give a calculation its variables and its depth limit, and the places
to which a result is rounded when it is written.
-/

namespace Reckon

namespace Desk

/-- A desk with the built-in constants. -/
def fresh (sources : Sources) : Desk :=
  ⟨.seeded, sources, []⟩

end Desk

namespace Settings

/-- The entry of a datum that must be there; settings need not be validated. -/
def entryOf (name : String) : Datum → Except Fault Datum
  | .mapping es => (required name es).mapError .settings
  | given => .error (.noEntry given)

/-- The depth limit in settings. -/
def limit (es : Entries) : Except Fault Datum := do
  entryOf "max_depth" (← entryOf "parser" (.mapping es))

/-- The variables in settings. -/
def bindingsIn (es : Entries) : Except Fault Entries := do
  match ← entryOf "variables" (.mapping es) with
  | .mapping vars => return vars
  | given => throw (.noEntries given)

/-- The keys of a scope in which variables were bound, in order: also those
that are no text, which no expression can name. -/
def boundKeys (vars : Entries) : List Scalar :=
  Association.keys (vars.foldl (fun acc (k, _) => Association.put k () acc)
    (Scope.seeded.names.map fun name => (.text name, ())))

/-- The places in settings: nothing, or a number of decimal places, where a
truth value counts as 0 or 1. -/
def places? (es : Entries) : Option Int :=
  match (find? "output" es).bind Datum.entries? |>.bind (find? "precision") with
  | some (.scalar s) =>
    match s.count? with
    | some (.integer n) => some n
    | _ => none
  | _ => none

/-- Debug events are logged at the lowest levels. -/
def showsDebug (es : Entries) : Bool :=
  match (find? "logging" es).bind Datum.entries? |>.bind (find? "level") with
  | some (.scalar (.text level)) => level = "DEBUG" ∨ level = "NOTSET"
  | _ => false

end Settings

namespace Work

/-- Binds the variables of settings; the answer is their depth limit. -/
def applySettings (es : Entries) : Work Datum := do
  let limit ← lift id (Settings.limit es)
  assignEntries (← lift id (Settings.bindingsIn es))
  return limit

/-- Reads and evaluates a source. -/
def valueOf (limit : Datum) (source : String) : Work Float := do
  evaluate (← read limit source)

end Work

/-- The text of a result, rounded to a number of places if one is given. -/
def formatValue (x : Float) : Option Int → Except Fault String
  | none => .ok (Double.text x)
  | some places =>
    match Double.roundToPlaces? x places with
    | some y => .ok (Double.text y)
    | none => .error .rounding

end Reckon
