import Reckon.Number
/-!
# Expression trees

A tree carries, at each node, the position in the source where the node
begins: the operator of an operation, the first character of anything else.  A
reference to a variable holds the tree that produced its value when the
source was read, so a later change of the variable does not reach it.

Trees can also be built by hand, with any operator and function names, with
nodes missing or with bare nodes that mean nothing; they fail only when they
are evaluated.
-/

namespace Reckon

/-- A supplier answers a number each time it is asked, going round its list;
suppliers with different identities are asked independently. -/
structure Supplier where
  identity : Nat
  first : Number
  others : List Number
deriving DecidableEq

/-- An expression tree. -/
inductive Expr where
  | constant (pos : Int) (value : Float)
  | supplied (pos : Int) (supplier : Supplier) (label : String)
  | method (pos : Int) (name : String)
  /-- A variable with the tree bound to it when it was read. -/
  | reference (pos : Int) (name : String) (producer : Expr)
  | unary (pos : Int) (op : String) (operand : Expr)
  | binary (pos : Int) (op : String) (left right : Expr)
  /-- A function of one argument. -/
  | call (pos : Int) (name : String) (argument : Expr)
  /-- A node without meaning. -/
  | bare (pos : Int)
  /-- A missing node. -/
  | absent
deriving DecidableEq

namespace Expr

/-- The word for the kind of a node. -/
def kindName : Expr → String
  | .constant .. => "Constant"
  | .supplied .. => "Supplier"
  | .method .. => "MethodCall"
  | .reference .. => "VariableRef"
  | .unary .. => "UnaryOp"
  | .binary .. => "BinaryOp"
  | .call .. => "FunctionCall"
  | .bare _ => "Node"
  | .absent => "NoneType"

/-- Two trees are built alike: the same kinds of nodes at the same positions
with the same names.  Constants are compared as numbers, so the two zeros
agree and NaN agrees with nothing; of suppliers only the label counts. -/
def alike : Expr → Expr → Bool
  | .constant p x, .constant q y => p == q && x == y
  | .supplied p _ l, .supplied q _ m => p == q && l == m
  | .method p n, .method q m => p == q && n == m
  | .reference p n x, .reference q m y => p == q && n == m && x.alike y
  | .unary p o x, .unary q r y => p == q && o == r && x.alike y
  | .binary p o x y, .binary q r z w => p == q && x.alike z && o == r && y.alike w
  | .call p n x, .call q m y => p == q && n == m && x.alike y
  | .bare p, .bare q => p == q
  | .absent, .absent => true
  | _, _ => false

end Expr

end Reckon
