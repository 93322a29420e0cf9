import Reckon.Machine
/-!
# Trees without positions

Positions say where in a source a node stands; they have no part in what a
tree is worth (`value_unplaced`).  A captured producer is left as it is: it
was placed by another source.
-/

namespace Reckon

namespace Expr

/-- The tree with every position outside of captured producers set to 0. -/
def unplaced : Expr → Expr
  | .constant _ x => .constant 0 x
  | .supplied _ supplier label => .supplied 0 supplier label
  | .method _ name => .method 0 name
  | .reference _ name producer => .reference 0 name producer
  | .unary _ op operand => .unary 0 op operand.unplaced
  | .binary _ op left right => .binary 0 op left.unplaced right.unplaced
  | .call _ name argument => .call 0 name argument.unplaced
  | .bare _ => .bare 0
  | .absent => .absent

/-- Positions have no part in the value. -/
theorem value_unplaced {ε σ : Type} (w : World ε σ) (e : Expr) :
    e.unplaced.value w = e.value w := by
  induction e with
  | unary _ _ _ ih => simp only [unplaced, value, ih]
  | binary _ _ _ _ ihl ihr => simp only [unplaced, value, ihl, ihr]
  | call _ _ _ ih => simp only [unplaced, value, ih]
  | _ => rfl

end Expr

end Reckon
