import Reckon.Calculation
import Reckon.Settings.Memory
/-!
# Settings over time

A store follows the settings through a history: files are written and taken
away, settings are asked for, variables are edited in what is held or in what
was loaded before, expressions are evaluated, and what is held is dropped.
-/

namespace Reckon

namespace Settings

/-- The files, the sources of impure leaves, the settings in memory, and those
that were answered last. -/
structure Store where
  files : FileTree
  sources : Sources
  shared : Shared := {}
  answered : Option Address := none

/-- A step of a history.  Directories are relative, the store's own being the
empty path. -/
inductive Step where
  | write (directory text : String)
  | remove (directory : String)
  /-- Drops what is held. -/
  | reset
  /-- Sets a variable in what is held. -/
  | mutate (name : String) (value : Datum)
  /-- Edits the variables in the settings of an earlier load, held or not. -/
  | alter (load : Nat) (edit : Edit)
  /-- Asks for the settings. -/
  | get (directory : String)
  /-- Evaluates an expression under the settings. -/
  | eval (source : String)

/-- What a step answers. -/
inductive Reply where
  | done
  /-- Settings, and whether the answer before was the very same. -/
  | settings (entries : Entries) (same : Bool)
  | value (x : Float)

/-- The path of the settings file in a directory. -/
def pathIn (directory : String) : String :=
  if directory.isEmpty then fileName else directory ++ "/" ++ fileName

namespace Store

/-- Work with a store. -/
abbrev Working := EStateM Fault Store

/-- The settings of a directory, from what is held if something is. -/
def obtain (reader : Reader) (directory : String) : Working Address := fun s =>
  match s.shared.obtain reader (pathIn directory) (s.files.find? (pathIn directory)) with
  | .ok a shared => .ok a { s with shared := shared }
  | .error f shared => .error f { s with shared := shared }

/-- The entries of settings. -/
def entriesAt (s : Store) (a : Address) : Entries :=
  s.shared.memory.entries a

/-- Edits the variables of settings. -/
def editVariables (a : Address) (edit : Edit) (s : Store) : Store :=
  { s with shared := s.shared.editVariables a edit }

/-- Edits the variables in the settings of an earlier load, if there was one. -/
def alter (load : Nat) (edit : Edit) (s : Store) : Store :=
  match s.shared.loads[load]? with
  | some a => s.editVariables a edit
  | none => s

/-- The value that work on a fresh desk finds. -/
def evaluate (work : Work Float) : Working Reply := fun s =>
  match work (Desk.fresh s.sources) with
  | .ok x desk => .ok (.value x) { s with sources := desk.sources }
  | .error f desk => .error f { s with sources := desk.sources }

/-- Carries out a step. -/
def step (reader : Reader) : Step → Working Reply
  | .write directory text => do
    let entry := FileEntry.file text.toUTF8.toList
    modify fun s => { s with files := s.files.write (pathIn directory) entry }
    return .done
  | .remove directory => do
    modify fun s => { s with files := s.files.remove (pathIn directory) }
    return .done
  | .reset => do
    modify fun s => { s with shared := s.shared.drop }
    return .done
  | .mutate name value => do
    let a ← obtain reader ""
    modify (editVariables a (.set (.text name) value))
    return .done
  | .alter load edit => do
    modify (alter load edit)
    return .done
  | .get directory => do
    let a ← obtain reader directory
    let before ← modifyGet fun s => (s.answered, { s with answered := some a })
    return .settings ((← get).entriesAt a) (before == some a)
  | .eval source => do
    let a ← obtain reader ""
    let es := (← get).entriesAt a
    evaluate do Work.valueOf (← Work.applySettings es) source

end Store

end Settings

end Reckon
