import Reckon.Settings.Loading
/-!
# Settings in memory

A mapping is changed in place, and whoever holds it sees the change.  So it
matters which mappings are the same one: here they lie in a memory, and parts
of settings are mappings that are known by their addresses.

A deep copy has new mappings throughout.  Laying a mapping over another makes a
new one, in which all that is not laid over is still the base's own.  Validation
writes what it normalises into the settings themselves.

What was loaded once is held until it is dropped, whatever becomes of the
file; a load that fails holds nothing.
-/

namespace Reckon

/-- Where a mapping lies. -/
abbrev Address := Nat

/-- What stands under a key of a mapping in memory: a mapping, or a datum that
is never changed. -/
inductive Slot where
  | mapping (address : Address)
  | leaf (d : Datum)

/-- The entries of a mapping in memory. -/
abbrev Cells := List (Scalar × Slot)

/-- Mappings by their addresses; none is ever given up. -/
abbrev Memory := List Cells

/-- Work that cannot fail. -/
abbrev InMemory := StateM Memory

namespace Memory

/-- The entries at an address. -/
def cellsAt (m : Memory) (a : Address) : Cells :=
  m.getD a []

/-- What stands under a name in a mapping. -/
def slot? (m : Memory) (a : Address) (name : String) : Option Slot :=
  Association.get? (.text name) (m.cellsAt a)

/-- The datum in a slot, down to a number of levels. -/
def contents (m : Memory) : Nat → Slot → Datum
  | _, .leaf d => d
  | 0, .mapping _ => .mapping []
  | levels + 1, .mapping a =>
    .mapping ((m.cellsAt a).map fun cell => (cell.1, contents m levels cell.2))

/-- The datum in a slot; there are no more levels than mappings. -/
def datum (m : Memory) (slot : Slot) : Datum :=
  m.contents m.length slot

/-- The entries of a mapping as data. -/
def entries (m : Memory) (a : Address) : Entries :=
  (m.cellsAt a).map fun cell => (cell.1, m.datum cell.2)

/-- A new mapping. -/
def allocate (cells : Cells) : InMemory Address := fun m =>
  (m.length, m ++ [cells])

/-- Gives a key of a mapping a value, in place. -/
def put (a : Address) (key : Scalar) (slot : Slot) (m : Memory) : Memory :=
  m.modify a (Association.put key slot)

/-- Takes a key of a mapping away, in place. -/
def erase (a : Address) (key : Scalar) (m : Memory) : Memory :=
  m.modify a (Association.erase key)

mutual

/-- A datum with new mappings. -/
def place : Datum → InMemory Slot
  | .mapping es => do
    let cells ← placeAll es
    return .mapping (← allocate cells)
  | d => return .leaf d

/-- Entries with new mappings. -/
def placeAll : List (Scalar × Datum) → InMemory Cells
  | [] => return []
  | (key, value) :: rest => do
    let slot ← place value
    return (key, slot) :: (← placeAll rest)

end

/-- A new mapping with given entries. -/
def placeMapping (es : Entries) : InMemory Address := do
  allocate (← placeAll es)

/-- A mapping that holds the same as another and shares nothing with it. -/
def deepCopy (a : Address) : InMemory Address := fun m =>
  placeMapping (m.entries a) m

mutual

/-- A datum laid over what is in a slot: of two mappings a new one is made. -/
def overlay (old : Slot) : Datum → InMemory Slot
  | .mapping new =>
    match old with
    | .mapping a => do
      let cells ← mergeCells ((← get).cellsAt a) new
      return .mapping (← allocate cells)
    | .leaf _ => place (.mapping new)
  | new => place new

/-- The cells of a mapping with entries laid over them, one after the other. -/
def mergeCells (cells : Cells) : List (Scalar × Datum) → InMemory Cells
  | [] => return cells
  | (key, value) :: rest => do
    let slot ← match Association.get? key cells with
      | some old => overlay old value
      | none => place value
    mergeCells (Association.put key slot cells) rest

end

/-- A new mapping: a base with entries laid over it. -/
def merge (base : Address) (override : Entries) : InMemory Address := do
  let cells ← mergeCells ((← get).cellsAt base) override
  allocate cells

end Memory

namespace Settings

/-- Work in memory that may fail. -/
abbrev Trying := EStateM Fault Memory

namespace Trying

/-- Takes over a result. -/
def lift {α : Type} : Except Fault α → Trying α
  | .ok a => return a
  | .error f => throw f

/-- Takes over a check of settings. -/
def check {α : Type} (x : Except SettingsFault α) : Trying α :=
  lift (x.mapError .settings)

/-- The mapping of a section. -/
def part (name : String) (a : Address) : Trying Address := do
  match (← get).slot? a name with
  | none => throw (.settings (.missing name))
  | some (.mapping b) => return b
  | some (.leaf _) => throw (.settings (.notMapping name))

/-- The mapping of the variables; a new one, if they are absent or void. -/
def bindings (a : Address) : Trying Address := do
  let m ← get
  match m.slot? a "variables" with
  | none => modifyGet (Memory.allocate [])
  | some slot =>
    if (m.datum slot).isVoid then modifyGet (Memory.allocate [])
    else
      match slot with
      | .mapping b => return b
      | .leaf _ => throw (.settings .bindings)

/-- Validates settings and normalises them in place. -/
def validate (a : Address) : Trying Unit := do
  let parser ← part "parser" a
  let output ← part "output" a
  let logging ← part "logging" a
  let depth := (find? "max_depth" ((← get).entries parser)).getD .nothing
  if !isDepth depth then check (refuse depth (.depth depth))
  let vars ← bindings a
  check (checkVariables ((← get).entries vars))
  modify (Memory.put a (.text "variables") (.mapping vars))
  let precision := (find? "precision" ((← get).entries output)).getD .nothing
  if !isPrecision precision then check (refuse precision (.precision precision))
  let name ← check (level ((← get).entries logging))
  modify (Memory.put logging (.text "level") (.leaf (.ofText name)))

end Trying

/-- What a datum lays over the defaults. -/
def overrideOf : Datum → Entries
  | .mapping es => es
  | _ => []

/-- What the file at a path lays over the defaults, if one is there. -/
def overrideIn (reader : Reader) (path : String) : Option FileEntry → Except Fault Entries
  | none => .ok []
  | some entry => (read reader path entry).map overrideOf

/-- The settings in the file that stands at a path, as a new mapping.  The
defaults, of which they are a copy at first, lie in memory too. -/
def loadInto (reader : Reader) (defaults : Address) (path : String) (entry : Option FileEntry) :
    Trying Address := do
  match ← Trying.lift (overrideIn reader path entry) with
  | [] => modifyGet (Memory.deepCopy defaults)
  | given =>
    let base ← modifyGet (Memory.deepCopy defaults)
    let a ← modifyGet (Memory.merge base given)
    Trying.validate a
    return a

/-- An edit in place. -/
def Edit.applyAt (a : Address) : Edit → InMemory Unit
  | .set key value => do
    let slot ← Memory.place value
    modify (Memory.put a key slot)
  | .remove key => modify (Memory.erase a key)

/-- Edits the variables of settings in place. -/
def editVariablesAt (a : Address) (edit : Edit) : InMemory Unit := do
  match (← get).slot? a "variables" with
  | some (.mapping vars) => edit.applyAt vars
  | _ => return ()

/-- What a process has in memory: the defaults, what it holds of the settings,
and everything that it ever loaded, which others may still use. -/
structure Shared where
  memory : Memory := (Memory.placeMapping Settings.defaults []).2
  defaults : Address := (Memory.placeMapping Settings.defaults []).1
  held : Option Address := none
  loads : List Address := []

namespace Shared

/-- The settings that are held, or else those of a file, which are held from
then on. -/
def obtain (reader : Reader) (path : String) (entry : Option FileEntry) :
    EStateM Fault Shared Address := fun s =>
  match s.held with
  | some a => .ok a s
  | none =>
    match loadInto reader s.defaults path entry s.memory with
    | .ok a m => .ok a { s with memory := m, held := some a, loads := s.loads ++ [a] }
    | .error f m => .error f { s with memory := m }

/-- Holds nothing. -/
def drop (s : Shared) : Shared :=
  { s with held := none }

/-- Edits the variables of settings that were loaded. -/
def editVariables (a : Address) (edit : Edit) (s : Shared) : Shared :=
  { s with memory := (editVariablesAt a edit s.memory).2 }

end Shared

end Settings

end Reckon
