import Reckon.Expr
import Reckon.Text.Quoted
/-!
# Showing a tree

The text of a tree names the kind of each node and then its parts in order,
the position first.
-/

namespace Reckon.Expr

/-- A field with its value. -/
private def field (name value : String) : String :=
  ", " ++ name ++ "=" ++ value

/-- The name of a node with its place and its fields. -/
private def node (e : Expr) (pos : Int) (fields : String) : String :=
  e.kindName ++ "(pos=" ++ toString pos ++ fields ++ ")"

/-- The text of a tree. -/
def describe (e : Expr) : String :=
  match e with
  | .constant p v => node e p (field "value" (Double.text v))
  | .supplied p _ l => node e p (field "label" (Text.quoted l))
  | .method p n => node e p (field "name" (Text.quoted n))
  | .reference p n x =>
    node e p (field "name" (Text.quoted n) ++ field "producer" x.describe)
  | .unary p o x => node e p (field "op" (Text.quoted o) ++ field "operand" x.describe)
  | .binary p o x y =>
    node e p
      (field "left" x.describe ++ field "op" (Text.quoted o) ++ field "right" y.describe)
  | .call p n x => node e p (field "name" (Text.quoted n) ++ field "argument" x.describe)
  | .bare p => node e p ""
  | .absent => "None"

end Reckon.Expr
