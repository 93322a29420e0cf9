/-!
# Diagnostics

What is reported about a source or a settings file: a category, a message, the
place in the source if there is one, and the name concerned when a name is
unknown.
-/

namespace Reckon

/-- The kinds of fault, in their fixed order. -/
inductive FaultKind where
  | unexpectedCharacter
  | unclosedGroup
  | malformedNumber
  | unknownIdentifier
  | trailingInput
  | nestingTooDeep
  | settings
deriving DecidableEq, Repr

namespace FaultKind

/-- Every kind, in order. -/
def all : List FaultKind :=
  [.unexpectedCharacter, .unclosedGroup, .malformedNumber, .unknownIdentifier, .trailingInput,
   .nestingTooDeep, .settings]

/-- The place of a kind in the order, counted from one. -/
def ordinal (k : FaultKind) : Nat :=
  all.idxOf k + 1

/-- All kinds but that of settings concern the reading of a source. -/
def concernsSource (k : FaultKind) : Bool :=
  k != .settings

end FaultKind

/-- How closely a diagnostic is classified: not at all, as a fault of a source,
or by its kind. -/
inductive Category where
  | general
  | source
  | kind (k : FaultKind)
deriving DecidableEq, Repr

/-- A diagnostic.  A negative position means that there is no place to show. -/
structure Diagnostic where
  category : Category
  message : String
  position : Int := -1
  name : Option String := none
deriving DecidableEq, Repr

namespace Diagnostic

/-- The message, with the place when there is one. -/
def text (d : Diagnostic) : String :=
  if 0 ≤ d.position then d.message ++ " at index " ++ toString d.position else d.message

/-- The kind, if the diagnostic has one. -/
def kind? (d : Diagnostic) : Option FaultKind :=
  match d.category with
  | .kind k => some k
  | _ => none

/-- The diagnostic concerns the reading of a source. -/
def concernsSource (d : Diagnostic) : Bool :=
  match d.category with
  | .general => false
  | .source => true
  | .kind k => k.concernsSource

end Diagnostic

end Reckon
