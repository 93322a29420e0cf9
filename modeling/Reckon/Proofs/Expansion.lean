import Reckon.Proofs.ExpandedText
import Reckon.Proofs.Reading
/-!
# Variables written out

Binding a variable to a tree is the same as writing out its text, in
parentheses, wherever the variable occurs.  The phrase in which the variable is
written out (`Phrase.expand`) consists of the expanded tokens, nests no deeper
than the two phrases together, and has the tree in which the bound tree takes
the place of the variable; and a reference is worth what its producer is worth.
-/

namespace Reckon

/-! ### Trees -/

namespace Expr

/-- A tree with another in place of every reference to a variable.  Captured
producers stay as they are. -/
def expand (x : String) : Expr → Expr → Expr
  | .reference p name producer, e => if name = x then e else .reference p name producer
  | .unary p op operand, e => .unary p op (operand.expand x e)
  | .binary p op left right, e => .binary p op (left.expand x e) (right.expand x e)
  | .call p name argument, e => .call p name (argument.expand x e)
  | other, _ => other

/-- Every reference to a variable has captured a given tree. -/
def Captures (x : String) : Expr → Expr → Prop
  | .reference _ name producer, e => name = x → producer = e
  | .unary _ _ operand, e => operand.Captures x e
  | .binary _ _ left right, e => left.Captures x e ∧ right.Captures x e
  | .call _ _ argument, e => argument.Captures x e
  | _, _ => True

variable {x : String} {e e' : Expr}

@[simp] theorem expand_absent : absent.expand x e = absent := rfl

theorem unplaced_expand (e' : Expr) :
    (e'.expand x e).unplaced = e'.unplaced.expand x e.unplaced := by
  induction e' with
  | reference p name producer ih =>
      by_cases hname : name = x <;> simp [expand, unplaced, hname]
  | unary p op operand ih => simp [expand, unplaced, ih]
  | binary p op left right ihl ihr => simp [expand, unplaced, ihl, ihr]
  | call p name argument ih => simp [expand, unplaced, ih]
  | _ => rfl

/-- Positions have no part in what references have captured. -/
theorem captures_unplaced : e'.unplaced.Captures x e ↔ e'.Captures x e := by
  induction e' with
  | unary p op operand ih => simpa [unplaced, Captures] using ih
  | binary p op left right ihl ihr => simp [unplaced, Captures, ihl, ihr]
  | call p name argument ih => simpa [unplaced, Captures] using ih
  | _ => rfl

/-- A tree that references have captured may take their place: a reference is
worth what its producer is worth. -/
theorem value_expand {ε σ : Type} (w : World ε σ) (h : e'.Captures x e) :
    (e'.expand x e).value w = e'.value w := by
  induction e' with
  | reference p name producer ih =>
      rw [expand]
      split
      · next hname => rw [value, h hname]
      · rfl
  | unary p op operand ih => simp only [expand, value, ih h]
  | binary p op left right ihl ihr => simp only [expand, value, ihl h.1, ihr h.2]
  | call p name argument ih => simp only [expand, value, ih h]
  | _ => rfl

end Expr

/-! ### Phrases -/

namespace Phrase

/-- The phrase in which a variable is written out. -/
def expand (x : List Char) : {part : Part} → Phrase part → Phrase .expression → Phrase part
  | _, .chain first rest, q => .chain (first.expand x q) (rest.expand x q)
  | _, .stop, _ => .stop
  | _, .link sign hsign operand rest, q => .link sign hsign (operand.expand x q) (rest.expand x q)
  | _, .signed sign hsign operand, q => .signed sign hsign (operand.expand x q)
  | _, .plain bottom, q => .plain (bottom.expand x q)
  | _, .power bottom exponent, q => .power (bottom.expand x q) (exponent.expand x q)
  | _, .group inner, q => .group (inner.expand x q)
  | _, .number text htext, _ => .number text htext
  | _, .reference name hname, q => if name = x then .group q else .reference name hname
  | _, .method name hname, _ => .method name hname
  | _, .call name hname argument, q => .call name hname (argument.expand x q)

variable {x : List Char} {q : Phrase .expression} {scope : Scope}

/-- To write a variable out in a phrase is to write it out in its tokens,
whatever follows with which the phrase could not go on. -/
theorem expandTokens_append {part : Part} (p : Phrase part) :
    ∀ {ts : List Token}, part.Stops ts → expandTokens x q.tokens (p.tokens ++ ts) =
      (p.expand x q).tokens ++ expandTokens x q.tokens ts := by
  induction p with
  | chain first rest ihf ihr =>
      intro ts hts
      simp only [tokens, expand, List.append_assoc, ihf (hts.links rest), ihr hts]
  | stop => exact fun hts => rfl
  | link sign hsign operand rest iho ihr =>
      intro ts hts
      simp only [tokens, expand, List.cons_append, List.append_assoc, expandTokens_mark,
        iho (Part.Stops.links hts rest), ihr hts]
  | signed sign hsign operand ih =>
      intro ts hts
      simp only [tokens, expand, List.cons_append, expandTokens_mark, ih hts]
  | plain bottom ih => exact fun hts => ih hts.base
  | power bottom exponent ihb ihe =>
      intro ts hts
      simp only [tokens, expand, List.cons_append, List.append_assoc, expandTokens_mark,
        ihb (Part.Stops.caret _), ihe hts]
  | group inner ih =>
      intro ts hts
      simp only [tokens, expand, List.cons_append, List.nil_append, List.append_assoc,
        expandTokens_mark, ih (Part.Stops.close _ _)]
  | number text htext => exact fun hts => rfl
  | reference name hname =>
      intro ts hts
      have hfree : ts.head? ≠ some (.mark '(') := hts '(' (by decide)
      simp only [tokens, expand, List.singleton_append, expandTokens]
      by_cases hx : name = x
      · rw [if_pos ⟨hx, hfree⟩, if_pos hx, tokens]
      · rw [if_neg fun h => hx h.1, if_neg hx, tokens]
  | method name hname =>
      intro ts hts
      simp only [tokens, expand, List.cons_append, List.nil_append, expandTokens, List.head?_cons,
        ne_eq, not_true_eq_false, and_false, if_false]
  | call name hname argument ih =>
      intro ts hts
      simp only [tokens, expand, List.cons_append, List.nil_append, List.append_assoc,
        expandTokens, List.head?_cons, ne_eq, not_true_eq_false, and_false, if_false,
        ih (Part.Stops.close _ _)]

theorem nesting_expand_le {part : Part} (p : Phrase part) :
    (p.expand x q).nesting ≤ p.nesting + q.nesting := by
  induction p with
  | reference name hname =>
      rw [expand]
      split
      · simp [nesting]
      · simp [nesting]
  | _ =>
      simp only [expand, nesting] at *
      omega

/-- A variable that is written out means what it meant in the text that takes
its place; every other variable is the same. -/
theorem resolved_expand (bound : Expr) (hq : q.Resolved scope) {part : Part} {p : Phrase part}
    (h : p.Resolved (scope.bind (String.ofList x) bound)) : (p.expand x q).Resolved scope := by
  induction p with
  | chain first rest ihf ihr => exact ⟨ihf h.1, ihr h.2⟩
  | stop | number => trivial
  | link sign hsign operand rest iho ihr => exact ⟨iho h.1, ihr h.2⟩
  | signed sign hsign operand ih => exact ih h
  | plain bottom ih => exact ih h
  | power bottom exponent ihb ihe => exact ⟨ihb h.1, ihe h.2⟩
  | group inner ih => exact ih h
  | reference name hname =>
      rw [expand]
      split
      · exact hq
      · next hne =>
          have hother : String.ofList name ≠ String.ofList x := fun heq =>
            hne (String.ofList_injective heq)
          rwa [Resolved, Scope.find?, Scope.bind, Association.get?_put_of_ne hother] at h
  | method name hname => exact h
  | call name hname argument ih => exact ⟨h.1, ih h.2⟩

/-- The tree of the phrase in which a variable is written out is the tree with
the other in its place. -/
theorem treeBehind_expand (scope : Scope) (bound : Expr) {part : Part} (p : Phrase part) :
    ∀ left : Expr,
    (p.expand x q).treeBehind scope (left.expand (String.ofList x) (q.tree scope)) =
      (p.treeBehind (scope.bind (String.ofList x) bound) left).expand (String.ofList x)
        (q.tree scope) := by
  induction p with
  | chain first rest ihf ihr =>
      intro left
      have hfirst := ihf .absent
      rw [Expr.expand_absent] at hfirst
      rw [expand, treeBehind, treeBehind, hfirst, ihr]
  | stop => exact fun left => rfl
  | link sign hsign operand rest iho ihr =>
      intro left
      have hoperand := iho .absent
      rw [Expr.expand_absent] at hoperand
      rw [expand, treeBehind, treeBehind, hoperand, ← ihr, Expr.expand]
  | signed sign hsign operand ih =>
      intro left
      have hoperand := ih .absent
      rw [Expr.expand_absent] at hoperand
      rw [expand, treeBehind, treeBehind, hoperand, Expr.expand]
  | plain bottom ih => exact fun left => ih .absent
  | power bottom exponent ihb ihe =>
      intro left
      have hbottom := ihb .absent
      have hexponent := ihe .absent
      rw [Expr.expand_absent] at hbottom hexponent
      rw [expand, treeBehind, treeBehind, hbottom, hexponent, Expr.expand]
  | group inner ih => exact fun left => ih .absent
  | number text htext => exact fun left => rfl
  | reference name hname =>
      intro left
      rw [expand, treeBehind, Expr.expand]
      by_cases hx : name = x
      · rw [if_pos hx, if_pos (congrArg String.ofList hx)]
        rfl
      · have hother : String.ofList name ≠ String.ofList x := fun heq =>
          hx (String.ofList_injective heq)
        rw [if_neg hx, if_neg hother, treeBehind, Scope.find?, Scope.find?, Scope.bind,
          Association.get?_put_of_ne hother]
  | method name hname => exact fun left => rfl
  | call name hname argument ih =>
      intro left
      have hargument := ih .absent
      rw [Expr.expand_absent] at hargument
      rw [expand, treeBehind, treeBehind, hargument, Expr.expand]

/-- Every reference to a variable that was just bound has captured what it was
bound to. -/
theorem captures_treeBehind {x : String} {bound : Expr} {part : Part} (p : Phrase part) :
    ∀ left : Expr, left.Captures x bound →
      (p.treeBehind (scope.bind x bound) left).Captures x bound := by
  induction p with
  | chain first rest ihf ihr => exact fun left hleft => ihr _ (ihf .absent trivial)
  | stop => exact fun left hleft => hleft
  | link sign hsign operand rest iho ihr =>
      exact fun left hleft => ihr _ ⟨hleft, iho .absent trivial⟩
  | signed sign hsign operand ih => exact fun left hleft => ih .absent trivial
  | plain bottom ih => exact fun left hleft => ih .absent trivial
  | power bottom exponent ihb ihe =>
      exact fun left hleft => ⟨ihb .absent trivial, ihe .absent trivial⟩
  | group inner ih => exact fun left hleft => ih .absent trivial
  | number | method => exact fun left hleft => trivial
  | reference name hname =>
      intro left hleft hname
      rw [hname, Scope.find?, Scope.bind, Association.get?_put_self]
      rfl
  | call name hname argument ih => exact fun left hleft => ih .absent trivial

/-- A phrase has a tree. -/
theorem treeBehind_ne_absent {part : Part} (p : Phrase part) : ∀ left : Expr,
    (∀ r, part = .links r → left ≠ .absent) → p.treeBehind scope left ≠ .absent := by
  induction p with
  | chain first rest ihf ihr =>
      intro left hleft
      have hfirst := ihf .absent fun r hr => absurd hr (Rank.operand_ne_links _ _)
      exact ihr _ fun _ _ => hfirst
  | stop => exact fun left hleft => hleft _ rfl
  | link sign hsign operand rest iho ihr => exact fun left hleft => ihr _ fun _ _ => nofun
  | plain bottom ih => exact fun left hleft => ih .absent (by simp)
  | group inner ih => exact fun left hleft => ih .absent (by simp)
  | signed | power | number | reference | method | call => exact fun left hleft => nofun

end Phrase

/-! ### Recording -/

/-- Something that an evaluation asks the world for. -/
inductive Call where
  | supplier (s : Supplier)
  | random

/-- A question to the world that is noted, with an answer or without. -/
def noted {ε σ : Type} (call : Call) (x : EStateM ε σ Float) :
    EStateM ε (σ × List Call) Float := fun (s, calls) =>
  match x s with
  | .ok a s' => .ok a (s', calls ++ [call])
  | .error e s' => .error e (s', calls ++ [call])

/-- A world that remembers the questions it was asked, in order. -/
def World.recorded {ε σ : Type} (w : World ε σ) : World ε (σ × List Call) where
  ask supplier := noted (.supplier supplier) (w.ask supplier)
  draw := noted .random w.draw
  elementary := w.elementary
  fail := w.fail

/-! ### Sources -/

/-- A tree that is there can be bound. -/
theorem Scope.assign_tree (scope : Scope) (x : String) {e : Expr} (h : e ≠ .absent) :
    scope.assign x (.tree e) = .ok (scope.bind x e) := by
  cases e with
  | absent => exact absurd rfl h
  | _ => rfl

open Grammar in
/-- The source in which a variable is written out has the phrase in which it is
written out. -/
theorem derives_expand {scope : Scope} {x text source : String} {limit limit' : Int}
    {bound : Expr} {q p : Phrase .expression} (hq : Derives scope limit text q)
    (hp : Derives (scope.bind x bound) limit' source p) :
    Derives scope (limit + limit')
      (String.ofList (expandText x.toList text.toList source.toList)) (p.expand x.toList q) := by
  refine ⟨?_, ?_, ?_⟩
  · have hspells := hp.spells.expand hq.spells (x := x.toList)
    have htokens := p.expandTokens_append (x := x.toList) (q := q) (Part.Stops.nil _)
    rw [List.append_nil] at htokens
    rw [htokens] at hspells
    simpa [expandTokens] using hspells
  · refine Phrase.resolved_expand bound hq.resolved ?_
    rw [String.ofList_toList]
    exact hp.resolved
  · have hle := p.nesting_expand_le (x := x.toList) (q := q)
    have hlimit := hq.nesting_le
    have hlimit' := hp.nesting_le
    omega

open Grammar in
/-- **To bind a variable to a tree is to write out its text in parentheses.**
Where a text is read as a tree, and a source with a variable bound to that tree,
the source in which the text is written out for the variable is read without
the binding, with as many levels as both together.  Its tree has the bound tree
in place of the variable, and in every world both have the same value and ask
for the same things in the same order. -/
theorem parse_expandText (scope : Scope) (x text source : String) (limit limit' : Int)
    (bound tree : Expr) (hbound : parse scope limit text = .ok bound)
    (htree : parse (scope.bind x bound) limit' source = .ok tree) :
    scope.assign x (.tree bound) = .ok (scope.bind x bound) ∧
    ∃ tree', parse scope (limit + limit')
        (String.ofList (expandText x.toList text.toList source.toList)) = .ok tree' ∧
      tree'.unplaced = (tree.expand x bound).unplaced ∧
      ∀ {ε σ : Type} (w : World ε σ), evaluateIn w tree' = evaluateIn w tree ∧
        evaluateIn w.recorded tree' = evaluateIn w.recorded tree := by
  obtain ⟨q, hq, hqtree⟩ := derives_of_parse hbound
  obtain ⟨p, hp, hptree⟩ := derives_of_parse htree
  have hderives := derives_expand hq hp
  obtain ⟨tree', htree'⟩ := parse_of_derives hderives
  obtain ⟨p', hp', hptree'⟩ := derives_of_parse htree'
  obtain rfl := phrase_unique hp'.spells hderives.spells
  have hunplaced : tree'.unplaced = (tree.expand x bound).unplaced := by
    have hexpand := Phrase.treeBehind_expand (x := x.toList) (q := q) scope bound p .absent
    rw [Expr.expand_absent, String.ofList_toList] at hexpand
    rw [hptree', Expr.unplaced_expand, hptree, hqtree]
    exact hexpand
  have hcaptures : tree.Captures x bound := by
    rw [← Expr.captures_unplaced, hptree]
    exact p.captures_treeBehind .absent trivial
  have hvalue : ∀ {ε σ : Type} (w : World ε σ), evaluateIn w tree' = evaluateIn w tree := by
    intro ε σ w
    calc evaluateIn w tree' = tree'.unplaced.value w := by
          rw [evaluateIn_eq_value, Expr.value_unplaced]
      _ = (tree.expand x bound).value w := by rw [hunplaced, Expr.value_unplaced]
      _ = evaluateIn w tree := by rw [Expr.value_expand w hcaptures, evaluateIn_eq_value]
  have hpresent : bound ≠ .absent := by
    rintro rfl
    exact q.treeBehind_ne_absent .absent (by simp) hqtree.symm
  exact ⟨scope.assign_tree x hpresent, tree', htree', hunplaced,
    fun w => ⟨hvalue w, hvalue w.recorded⟩⟩

/-- A product is bound to a name that the constant `pi` in it had before, and a
power of that name is read. -/
theorem parse_expandText_pi : ∃ bound tree tree',
    parse .seeded 100 "2*pi" = .ok bound ∧
    parse (Scope.seeded.bind "pi" bound) 100 "pi^2 - pi" = .ok tree ∧
    parse .seeded 200 (String.ofList (expandText "pi".toList "2*pi".toList "pi^2 - pi".toList)) =
      .ok tree' ∧
    tree'.unplaced = (tree.expand "pi" bound).unplaced ∧
    evaluateIn Sources.world tree' = evaluateIn Sources.world tree := by
  have hread : (match parse .seeded 100 "2*pi" with
    | .ok bound => (parse (Scope.seeded.bind "pi" bound) 100 "pi^2 - pi").isOk
    | .error _ => false) = true := by decide +kernel
  split at hread
  · next bound hbound =>
      obtain ⟨tree, htree⟩ : ∃ tree,
          parse (Scope.seeded.bind "pi" bound) 100 "pi^2 - pi" = .ok tree := by
        cases htree : parse (Scope.seeded.bind "pi" bound) 100 "pi^2 - pi" with
        | ok tree => exact ⟨tree, rfl⟩
        | error e =>
            rw [htree] at hread
            cases hread
      obtain ⟨-, tree', htree', hunplaced, hvalue⟩ :=
        parse_expandText .seeded "pi" "2*pi" "pi^2 - pi" 100 100 bound tree hbound htree
      exact ⟨bound, tree, tree', hbound, htree, htree', hunplaced, (hvalue Sources.world).1⟩
  · cases hread

end Reckon
