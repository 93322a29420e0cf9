import Reckon.Datum
import Reckon.Expr.Show
import Reckon.Text.Points
/-!
# Showing data

Nothing and the truth values are written as words, numbers by their digits and
texts in quotes; lists stand in brackets and mappings in braces.  A datum with
an integer that has too many digits is not writable.
-/

namespace Reckon

/-- The text of a scalar. -/
def Scalar.describe : Scalar → String
  | .nothing => "None"
  | .boolean b => if b then "True" else "False"
  | .number n => n.text
  | .text s => Text.quoted s
  | .illFormed points => Text.quotedPoints points
  | .moment m => m.describe
  | .foreign value => value.text

/-- Every scalar is writable, but for integers with too many digits and what
holds one. -/
def Scalar.isWritable : Scalar → Bool
  | .number n => n.isWritable
  | .foreign value => value.isWritable
  | _ => true

/-- The plain text of a scalar: a text stands for itself. -/
def Scalar.plain : Scalar → String
  | .text s => s
  | .illFormed points => String.ofList (Text.charsOfPoints points)
  | .moment m => m.plain
  | s => s.describe

namespace Datum

/-- Parts with a comma between them. -/
def joined (parts : List String) : String :=
  ", ".intercalate parts

mutual

/-- The text of a datum. -/
def describe : Datum → String
  | .scalar s => s.describe
  | .list items => "[" ++ joined (describeItems items) ++ "]"
  | .mapping es => "\x7b" ++ joined (describeEntries es) ++ "\x7d"
  | .supplier _ => "<supplier>"
  | .tree e => e.describe

/-- The texts of the items of a list. -/
def describeItems : List Datum → List String
  | [] => []
  | d :: rest => d.describe :: describeItems rest

/-- The texts of the entries of a mapping. -/
def describeEntries : List (Scalar × Datum) → List String
  | [] => []
  | (k, d) :: rest => (k.describe ++ ": " ++ d.describe) :: describeEntries rest

end

mutual

/-- A datum is writable if all scalars in it are. -/
def isWritable : Datum → Bool
  | .scalar s => s.isWritable
  | .list items => areWritable items
  | .mapping es => areWritableEntries es
  | .supplier _ | .tree _ => true

/-- All items of a list are writable. -/
def areWritable : List Datum → Bool
  | [] => true
  | d :: rest => d.isWritable && areWritable rest

/-- All keys and values of a mapping are writable. -/
def areWritableEntries : List (Scalar × Datum) → Bool
  | [] => true
  | (k, d) :: rest => k.isWritable && d.isWritable && areWritableEntries rest

end

/-- The plain text of a datum: a text stands for itself. -/
def plain : Datum → String
  | .scalar s => s.plain
  | d => d.describe

end Datum

end Reckon
