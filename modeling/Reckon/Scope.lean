import Reckon.Arithmetic
import Reckon.Association
import Reckon.Datum.Show
import Reckon.Expr
/-!
# Scopes and what can be bound in them

A scope binds variable names to trees and keeps them in the order in which
they were first bound.  A fresh scope binds `e` and `pi`, and the circle
constant once more under an old misspelling of its Greek letter.

A number, a supplier or a tree can be bound; a number becomes a constant.  A
truth value is refused although it could be counted, and so is everything
else, with the name for which it was meant.
-/

namespace Reckon

/-- The variables and their trees. -/
structure Scope where
  entries : List (String × Expr)
deriving DecidableEq

namespace Scope

/-- The circle constant's Greek letter, as two wrongly decoded characters. -/
def misspeltPi : String := "\u00cf\u20ac"

/-- The scope with the built-in constants. -/
def seeded : Scope :=
  ⟨[("e", .constant 0 euler), (misspeltPi, .constant 0 pi), ("pi", .constant 0 pi)]⟩

/-- The tree bound to a name. -/
def find? (s : Scope) (name : String) : Option Expr :=
  Association.get? name s.entries

/-- Binds a name; a bound name keeps its place. -/
def bind (s : Scope) (name : String) (producer : Expr) : Scope :=
  ⟨Association.put name producer s.entries⟩

/-- The bound names in order. -/
def names (s : Scope) : List String :=
  Association.keys s.entries

/-- The number of bound names. -/
def size (s : Scope) : Nat :=
  s.entries.length

/-- A scalar is the name of a bound variable; only a text can be one. -/
def contains (s : Scope) : Scalar → Bool
  | .text name => (s.find? name).isSome
  | _ => false

/-- The text of a scope shows its names. -/
def describe (s : Scope) : String :=
  "VariableTable([" ++ ", ".intercalate (s.names.map Text.quoted) ++ "])"

/-- A name that is bound is found. -/
theorem find?_bind_self (name : String) (producer : Expr) (s : Scope) :
    (s.bind name producer).find? name = some producer :=
  Association.get?_put_self name producer s.entries

/-- Any other name is found as before. -/
theorem find?_bind_of_ne {name other : String} (h : other ≠ name) (s : Scope) (producer : Expr) :
    (s.bind name producer).find? other = s.find? other :=
  Association.get?_put_of_ne h producer s.entries

/-- A new name comes last, and one that is bound anew keeps its place. -/
theorem names_bind (s : Scope) (name : String) (producer : Expr) :
    (s.bind name producer).names = if name ∈ s.names then s.names else s.names ++ [name] := by
  split
  · next hmem => exact Association.keys_put_of_mem producer hmem
  · next hmem => exact Association.keys_put_of_not_mem producer hmem

end Scope

/-- Why a datum cannot be the value of a variable, and of which. -/
inductive Refusal where
  | truthValue (label : Scalar)
  | notANumber (label : Scalar) (kind : String)
  /-- An integer beyond the range of doubles. -/
  | tooLarge

/-- The tree that stands for a datum as the value of a variable.  Numbers and
suppliers become leaves at position 0. -/
def Datum.producer (label : Scalar) : Datum → Except Refusal Expr
  | .tree .absent => .error (.notANumber label Datum.nothing.kindName)
  | .tree e => .ok e
  | .supplier s => .ok (.supplied 0 s label.plain)
  | .scalar (.boolean _) => .error (.truthValue label)
  | .scalar (.number n) =>
    match n.toDouble? with
    | some x => .ok (.constant 0 x)
    | none => .error .tooLarge
  | d => .error (.notANumber label d.kindName)

namespace Refusal

/-- The wording of a refusal. -/
def message : Refusal → String
  | .truthValue label => "Variable " ++ label.describe ++ " must be numeric, not bool"
  | .notANumber label kind =>
    "Variable " ++ label.describe ++ " must be a number, node or callable, not " ++ kind
  | .tooLarge => "int too large to convert to float"

end Refusal

/-- Binds a name to the value that a datum gives it; a refused datum leaves the
scope as it is. -/
def Scope.assign (s : Scope) (name : String) (d : Datum) : Except Refusal Scope :=
  (d.producer (.text name)).map (s.bind name)

end Reckon
