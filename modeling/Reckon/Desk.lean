import Reckon.Expr.Show
import Reckon.Limit
import Reckon.Machine
import Reckon.Text.Blank
/-!
# Working with a scope

A desk holds a scope, the sources of impure leaves and a journal of what was
done.  Binding a name, reading a source and evaluating a tree are steps of
work on it; a step that fails leaves what was done before it.

Assignments are texts of the form `name=expression`.  They are carried out
strictly in order, each expression being read and evaluated with the
variables bound so far, and the first bad one ends the work.
-/

namespace Reckon

/-- Something worth a line in a log. -/
inductive Event where
  | bound (name : String) (producer : Expr)
  | parsed (source : String) (tree : Expr)

/-- The line of an event in a log. -/
def Event.line : Event → String
  | .bound name producer =>
    "DEBUG:strmath.variables:variable " ++ Text.quoted name ++ " bound to " ++ producer.describe
  | .parsed source tree =>
    "DEBUG:strmath.parser:parsed " ++ Text.quoted source ++ " -> " ++ tree.describe

/-- A scope, the sources of impure leaves, and the events so far. -/
structure Desk where
  scope : Scope
  sources : Sources
  journal : List Event

/-- Work on a desk. -/
abbrev Work := EStateM Fault Desk

namespace Work

/-- Takes over a result. -/
def lift {ε α : Type} (toFault : ε → Fault) : Except ε α → Work α
  | .ok a => return a
  | .error e => throw (toFault e)

/-- Binds a name to the value that a datum gives it. -/
def assign (name : String) (value : Datum) : Work Unit := do
  let producer ← lift .refusal (value.producer (.text name))
  modify fun d => { d with
    scope := d.scope.bind name producer
    journal := d.journal ++ [.bound name producer] }

/-- Reads a source with the variables of the desk. -/
def read (limit : Datum) (source : String) : Work Expr := do
  let tree ← lift id (parseUnder (← get).scope limit source)
  modify fun d => { d with journal := d.journal ++ [.parsed source tree] }
  return tree

/-- Evaluates a tree with the sources of the desk. -/
def evaluate (tree : Expr) : Work Float := fun d =>
  match Reckon.evaluate tree d.sources with
  | .ok x s => .ok x { d with sources := s }
  | .error e s => .error (.evaluation e) { d with sources := s }

/-- Binds the entries of a mapping in order.  A key that is no text takes part
in the checks, but no expression can name it. -/
def assignEntries : Entries → Work Unit
  | [] => return ()
  | (.text name, value) :: rest => do
    assign name value
    assignEntries rest
  | (key, value) :: rest => do
    let _ ← lift .refusal (value.producer key)
    assignEntries rest

end Work

namespace Assignment

/-- The name and the expression of an assignment: what stands before the first
equals sign, without blanks at its ends, and what stands after it.  The name
must not be empty. -/
def split? (text : String) : Option (String × String) :=
  let cs := text.toList
  match cs.dropWhile (· ≠ '=') with
  | [] => none
  | _ :: value =>
    let name := Text.stripChars (cs.takeWhile (· ≠ '='))
    if name.isEmpty then none else some (String.ofList name, String.ofList value)

/-- Carries out an assignment. -/
def perform (limit : Datum) (text : String) : Work Unit := do
  match split? text with
  | none => throw (.assignment text)
  | some (name, source) =>
    let tree ← Work.read limit source
    let value ← Work.evaluate tree
    Work.assign name (.scalar (.number (.double value)))

/-- Carries out assignments in order, up to the first that fails. -/
def performAll (limit : Datum) : List String → Work Unit
  | [] => return ()
  | text :: rest => do
    perform limit text
    performAll limit rest

end Assignment

end Reckon
