import Reckon.Association
import Reckon.Expr
/-!
# Where the values in a tree come from

A reference holds the tree that was bound to its name when it was read.
References that were read under one binding hold the very same tree, and the
very same tree agrees with itself, even if it holds NaN, which agrees with
nothing else.  An origin remembers under which bindings a tree was read, every
binding having a number of its own, and the trees that were bound have origins
in turn.
-/

namespace Reckon

/-- The bindings under which a tree was read: for a name the number of its
binding and the origin of the tree that was bound. -/
inductive Origin where
  | from (bindings : List (String × Nat × Origin))

namespace Origin

/-- No bindings at all. -/
def nowhere : Origin := .from []

/-- The number of the binding of a name, and the origin of what was bound. -/
def binding? (name : String) : Origin → Option (Nat × Origin)
  | .from bindings => Association.get? name bindings

/-- One more binding. -/
def bind (name : String) (number : Nat) (inner : Origin) : Origin → Origin
  | .from bindings => .from (Association.put name (number, inner) bindings)

/-- The origin of what was bound to a name. -/
def inner (name : String) (o : Origin) : Origin :=
  (o.binding? name).elim nowhere (·.2)

/-- Under two origins a name has the same binding. -/
def agreeOn (name : String) (o p : Origin) : Bool :=
  match o.binding? name, p.binding? name with
  | some (i, _), some (j, _) => i == j
  | _, _ => false

end Origin

/-- Two trees from two origins are alike: as trees are on their own, save that
what was bound by one binding is alike whatever it holds. -/
def Expr.alikeFrom (o p : Origin) : Expr → Expr → Bool
  | .reference i n x, .reference j m y =>
    i == j && n == m && (o.agreeOn n p || x.alikeFrom (o.inner n) (p.inner n) y)
  | .unary i f x, .unary j g y => i == j && f == g && x.alikeFrom o p y
  | .binary i f x y, .binary j g z w =>
    i == j && x.alikeFrom o p z && f == g && y.alikeFrom o p w
  | .call i n x, .call j m y => i == j && n == m && x.alikeFrom o p y
  | e, f => e.alike f

end Reckon
