import Reckon.Association
import Reckon.Expr
import Reckon.Moment
/-!
# Data

The values of settings, of requests and of variables: nothing, truth values,
numbers, texts and moments, lists and mappings of data, and what a caller can
set a variable to besides: a supplier, which answers a number each time it is
asked, and an expression tree.  A reader of settings files can answer with
further values, such as bytes and sets; of these only what can be seen of them
matters.

Only scalars, which are not made of parts, can be keys of a mapping.  Keys are
compared by value, and a truth value counts as the number 0 or 1, so that `1`,
`1.0` and `true` are one key.
-/

namespace Reckon

/-- The marks of which the text of a foreign value has one. -/
def foreignMarks : List Char :=
  ['\'', '"', '(', '[', '\x7b', '<']

/-- A value of another kind, which is no number, no text and no mapping and
cannot be called, by what can be seen of it. -/
structure Foreign where
  kindName : String
  /-- Its text, with all of its integers written out. -/
  text : String
  /-- It counts as absent, as empty values do. -/
  isVoid : Bool
  /-- No integer in it has too many digits to be written. -/
  isWritable : Bool
  /-- It is shown in quotes or in brackets, so that no word is like it. -/
  marked : ∃ c ∈ text.toList, c ∈ foreignMarks
deriving DecidableEq

/-- A datum that is not made of parts. -/
inductive Scalar where
  | nothing
  | boolean (b : Bool)
  | number (n : Number)
  | text (s : String)
  /-- A text with a code point that no character has, by its code points. -/
  | illFormed (points : List Nat)
  | moment (m : Moment)
  | foreign (value : Foreign)

namespace Scalar

/-- The text with given code points. -/
def ofPoints (points : List Nat) : Scalar :=
  if points.all fun n => n.isValidChar then .text (String.ofList (points.map Char.ofNat))
  else .illFormed points

/-- The number that a scalar counts as. -/
def count? : Scalar → Option Number
  | .boolean b => some (.integer (if b then 1 else 0))
  | .number n => some n
  | _ => none

/-- Two scalars are the same key. -/
def sameKey (a b : Scalar) : Bool :=
  match a, b with
  | .nothing, .nothing => true
  | .text s, .text t => s == t
  | .illFormed s, .illFormed t => s == t
  | .moment s, .moment t => s.same t
  | .foreign s, .foreign t => s == t
  | _, _ =>
    match a.count?, b.count? with
    | some m, some n => m.equal n
    | _, _ => false

instance : BEq Scalar := ⟨sameKey⟩

/-- A double that is no number. -/
def isNaN : Scalar → Bool
  | .number (.double x) => x.isNaN
  | _ => false

end Scalar

/-- A datum. -/
inductive Datum where
  | scalar (s : Scalar)
  | list (items : List Datum)
  | mapping (entries : List (Scalar × Datum))
  | supplier (s : Supplier)
  | tree (e : Expr)
deriving Inhabited

/-- The entries of a mapping, in order. -/
abbrev Entries := List (Scalar × Datum)

namespace Datum

/-- The empty datum. -/
def nothing : Datum := .scalar .nothing

/-- A text as a datum. -/
def ofText (s : String) : Datum := .scalar (.text s)

/-- An integer as a datum. -/
def ofInt (n : Int) : Datum := .scalar (.number (.integer n))

/-- A tree as a datum; a missing tree is nothing. -/
def ofTree : Expr → Datum
  | .absent => nothing
  | e => .tree e

/-- The entries of a mapping. -/
def entries? : Datum → Option Entries
  | .mapping es => some es
  | _ => none

/-- A datum counts as absent: nothing, false, a zero, or empty. -/
def isVoid : Datum → Bool
  | .scalar .nothing => true
  | .scalar (.boolean b) => !b
  | .scalar (.number (.integer n)) => n == 0
  | .scalar (.number (.double x)) => x == 0.0
  | .scalar (.text s) => s.isEmpty
  | .scalar (.illFormed _) | .scalar (.moment _) => false
  | .scalar (.foreign value) => value.isVoid
  | .list items => items.isEmpty
  | .mapping es => es.isEmpty
  | .supplier _ | .tree _ => false

/-- The word for the kind of a datum. -/
def kindName : Datum → String
  | .scalar .nothing => "NoneType"
  | .scalar (.boolean _) => "bool"
  | .scalar (.number (.integer _)) => "int"
  | .scalar (.number (.double _)) => "float"
  | .scalar (.text _) | .scalar (.illFormed _) => "str"
  | .scalar (.moment m) => m.kindName
  | .scalar (.foreign value) => value.kindName
  | .list _ => "list"
  | .mapping _ => "dict"
  | .supplier _ => "function"
  | .tree e => e.kindName

end Datum

end Reckon
