import Reckon.Fault
import Reckon.FileTree
/-!
# Loading settings

Settings come from a file, by way of a reader.  A datum that is not a mapping
with entries means the defaults, and so does a missing file; otherwise the
mapping is laid over the defaults and validated.
-/

namespace Reckon

namespace Settings

/-- The name of the settings file. -/
def fileName : String := "strmath.config"

/-- The datum in the settings file at a path.  What a reader reports about the
text is a fault of the settings; any other fault of it is passed on. -/
def read (reader : Reader) (path : String) : FileEntry → Except Fault Datum
  | .directory => .error (.directory path)
  | .file bytes =>
    match reader bytes with
    | .ok d => .ok d
    | .error (.malformed report) => .error (.settings (.unreadable (report path)))
    | .error (.fault f) => .error (.outside f)

/-- The settings that a datum gives. -/
def ofDatum : Datum → Except Fault Entries
  | .mapping (e :: es) => (validate (Datum.merge defaults (e :: es))).mapError .settings
  | _ => .ok defaults

/-- The settings in the file that stands at a path, if one does. -/
def load (reader : Reader) (path : String) : Option FileEntry → Except Fault Entries
  | none => .ok defaults
  | some entry => do ofDatum (← read reader path entry)

/-- What can be done to a mapping by those who hold it. -/
inductive Edit where
  /-- Gives a key a value. -/
  | set (key : Scalar) (value : Datum)
  /-- Takes a key away. -/
  | remove (key : Scalar)

/-- Entries after an edit. -/
def Edit.apply : Edit → Entries → Entries
  | .set key value, es => Association.put key value es
  | .remove key, es => Association.erase key es

/-- Settings after an edit of their variables. -/
def editVariables (edit : Edit) (es : Entries) : Entries :=
  match (find? "variables" es).bind Datum.entries? with
  | some vars => withEntry "variables" (.mapping (edit.apply vars)) es
  | none => es

end Settings

end Reckon
