import Mathlib.Control.Monad.Basic
import Reckon.Parser
import Reckon.Proofs.Progress
/-!
# The methods of a parser do what the rules do

Wherever the cursor of a parser is placed, a rule leaves it placed, and not more
of its source than was left (`Narrows`).  A turn of a loop leaves less, so the
characters that are left bound the turns, as the limit of depth bounds the
nesting.  With fuel for both, a method does what its rule does on the cursor,
and nothing to the rest of the parser (`read_eq_rule`).
-/

namespace Reckon

/-! ### Rules anywhere in a source -/

namespace Cursor

/-- The cursor is placed, before the text or in it, and at most `size`
characters are left. -/
structure Within (text : List Char) (size : Nat) (c : Cursor) : Prop where
  placed : c.Placed
  source_eq : c.source = text
  length_le : c.rest.length ≤ size

variable {c : Cursor} {text : List Char} {size : Nat}

/-- What is skipped leaves the cursor within the text, and no more than before.
-/
theorem Within.skip (h : c.Within text size) {run : List Char}
    (hrun : run.length ≤ c.rest.length) : (c.skip run).Within text size := by
  refine ⟨placed_skip h.placed hrun, h.source_eq, ?_⟩
  have hsize := h.length_le
  simp only [Cursor.skip, List.length_drop]
  omega

/-- A scan leaves the cursor within the text. -/
theorem Within.scan (h : c.Within text size) (p : Char → Bool) :
    (c.scan p).2.Within text size :=
  h.skip (List.takeWhile_sublist p).length_le

/-- Where something is left the cursor stands in its source. -/
theorem Placed.started (h : c.Placed) (hrest : c.rest ≠ []) : c.Started := by
  refine ⟨h, Int.not_lt.mp fun hneg => hrest ?_⟩
  rw [h.rest_eq, if_pos hneg]

/-- No more is left than there is. -/
theorem Placed.length_rest_le (h : c.Placed) : c.rest.length ≤ c.source.length := by
  rw [h.rest_eq]
  split
  · exact Nat.zero_le _
  · exact (List.drop_sublist _ _).length_le

/-- To eat leaves the cursor within the text. -/
theorem Within.eat (h : c.Within text size) (x : Char) : (c.eat [x]).2.Within text size := by
  have hskip : c.skipSpaces.Within text size := h.scan (· == ' ')
  by_cases hcurrent : c.skipSpaces.current.toList = [x]
  · have hrest : c.skipSpaces.rest ≠ [] := by
      intro hnil
      simp [Cursor.current, hnil] at hcurrent
    simp only [Cursor.eat, if_pos hcurrent]
    refine ⟨placed_advance hskip.placed, hskip.source_eq, ?_⟩
    rw [(hskip.placed.started hrest).rest_advance, List.length_tail]
    exact Nat.le_trans (Nat.sub_le _ _) hskip.length_le
  · simpa only [Cursor.eat, if_neg hcurrent] using hskip

end Cursor

namespace Grammar

open Cursor (Within)

/-- Wherever the cursor is placed, the rule leaves it placed, and no more than
was left. -/
def Narrows {α : Type} (rule : Rule α) : Prop :=
  ∀ text size, Keeps (Within text size) rule fun _ => True

namespace Narrows

variable {α β : Type}

/-- An answer at once leaves the cursor where it is. -/
theorem pure (a : α) : Narrows (Pure.pure a : Rule α) :=
  fun _ _ => Keeps.pure trivial

/-- One rule behind another stays within the text if both do. -/
theorem bind {x : Rule α} {f : α → Rule β} (hx : Narrows x) (hf : ∀ a, Narrows (f a)) :
    Narrows (x >>= f) :=
  fun text size => (hx text size).bind fun a _ => hf a text size

/-- A look at the cursor leaves it where it is. -/
theorem get : Narrows (MonadState.get : Rule Cursor) :=
  fun _ _ _ hc => ⟨hc, trivial⟩

/-- However a rule ends, it leaves the cursor within the text. -/
theorem leaves {rule : Rule α} (h : Narrows rule) {text : List Char} {size : Nat} {c : Cursor}
    (hc : c.Within text size) : (Grammar.leaves rule c).Within text size := by
  have hkept := h text size c hc
  unfold Grammar.leaves
  cases hrun : rule c with
  | ok a c' =>
      rw [hrun] at hkept
      exact hkept.1
  | error e c' =>
      rw [hrun] at hkept
      exact hkept

/-- The cursor of a success is within the text. -/
theorem ok {rule : Rule α} (h : Narrows rule) {text : List Char} {size : Nat} {c c' : Cursor}
    {a : α} (hc : c.Within text size) (hok : rule c = .ok a c') : c'.Within text size := by
  simpa only [Grammar.leaves, hok] using h.leaves hc

/-- To eat stays within the text. -/
theorem eat (x : Char) : Narrows (Grammar.eat x) :=
  fun _ _ => Keeps.modifyGet fun _ hc => hc.eat x

/-- To try several marks stays within the text. -/
theorem eatAny (signs : List Char) : Narrows (Grammar.eatAny signs) := by
  induction signs with
  | nil => exact pure none
  | cons y signs ih =>
      refine (eat y).bind fun found => ?_
      cases found with
      | true => exact pure _
      | false => exact ih

/-- The place of what was eaten is found without moving. -/
theorem consumedAt : Narrows consumedAt :=
  (get.bind fun _ => pure _).bind fun _ => pure _

/-- A chain stays within the text if its operands do. -/
theorem chain {operand : Rule Expr} (hop : Narrows operand) (signs left : List Char) :
    ∀ tree, Narrows (Grammar.chain operand signs left tree) := by
  induction left with
  | nil => exact fun tree => pure tree
  | cons _ left ih =>
      intro tree
      refine (eatAny signs).bind fun found => ?_
      cases found with
      | none => exact pure tree
      | some sign => exact consumedAt.bind fun place => hop.bind fun right => ih _

/-- **To stay within the text passes from step to step.** -/
theorem stepwise : Stepwise Narrows where
  pure := pure
  bind := bind
  failAt _ _ := fun _ _ => Keeps.throw _
  here := get.bind fun _ => pure _
  current := get.bind fun _ => pure _
  eat := eat
  scan p := fun _ _ => Keeps.modifyGet fun _ hc => hc.scan p
  operations signs hop := hop.bind fun first => get.bind fun _ => chain hop signs _ first

end Narrows

/-- Every rule stays within the text, at each level and depth. -/
theorem rule_narrows (scope : Scope) (limit depth : Int) (level : Level) :
    Narrows (level.rule scope limit depth) := by
  have hsteps := Narrows.stepwise
  have hfactor := hsteps.factor scope limit (allowance limit depth)
  cases level with
  | expression => exact hsteps.expression hfactor
  | term => exact hsteps.operations _ hfactor
  | factor => exact hfactor
  | base => exact hsteps.base scope (hsteps.expression hfactor)

/-- The rule of whole sources stays within the text. -/
theorem whole_narrows (scope : Scope) (limit : Int) : Narrows (whole scope limit) := by
  refine (rule_narrows scope limit 0 .expression).bind fun tree => Narrows.get.bind fun c => ?_
  cases c.atEnd with
  | true => exact Narrows.stepwise.pure tree
  | false => exact Narrows.stepwise.fail _

end Grammar

namespace Parser

open Grammar
open Cursor (Within)

/-! ### Methods do what the rules do -/

variable {α β : Type}

/-- What follows a method goes on from what it leaves behind. -/
theorem bind_apply (x : Method α) (f : α → Method β) (p : Parser) :
    (x >>= f) p = (x p).bind fun
      | (.ok a, p') => f a p'
      | (.error e, p') => some (.error e, p') := by
  show (StateT.bind x (ExceptT.bindCont f)) p = _
  unfold StateT.bind
  cases h : x p with
  | none => rfl
  | some r =>
      obtain ⟨outcome, p'⟩ := r
      cases outcome <;> rfl

/-- A rule is carried out on the cursor of the parser only. -/
theorem onCursor_congr {rule rule' : Rule α} {p : Parser} (h : rule p.cursor = rule' p.cursor) :
    onCursor rule p = onCursor rule' p := by
  unfold onCursor
  rw [h]

/-- Sequences agree on a parser whose first parts do, and whose second parts do
behind them. -/
theorem bind_eq_onCursor {x : Method α} {rule : Rule α} {f : α → Method β} {g : α → Rule β}
    {p : Parser} (h : x p = onCursor rule p)
    (hf : ∀ a c, rule p.cursor = .ok a c →
      f a { p with cursor := c } = onCursor (g a) { p with cursor := c }) :
    (x >>= f) p = onCursor (rule >>= g) p := by
  rw [bind_apply, h]
  unfold onCursor
  cases hrun : rule p.cursor with
  | ok a c =>
      rw [bind_of_ok hrun]
      exact hf a c hrun
  | error e c =>
      rw [bind_eq_error.mpr (.inl hrun)]
      rfl

/-- A method does what a rule does, wherever the cursor of the parser is placed
with so many characters left. -/
def Does (scope : Scope) (limit depth : Int) (text : List Char) (size : Nat)
    (method : Method α) (rule : Rule α) : Prop :=
  ∀ c : Cursor, c.Within text size →
    method ⟨c, scope, limit, depth⟩ = onCursor rule ⟨c, scope, limit, depth⟩

section Does

variable {scope : Scope} {limit depth : Int} {text : List Char} {size : Nat}

/-- Methods in sequence do what their rules do in sequence. -/
theorem Does.bind {x : Method α} {rule : Rule α} {f : α → Method β} {g : α → Rule β}
    (hx : Does scope limit depth text size x rule) (hrule : Narrows rule)
    (hf : ∀ a, Does scope limit depth text size (f a) (g a)) :
    Does scope limit depth text size (x >>= f) (rule >>= g) :=
  fun c hc => bind_eq_onCursor (hx c hc) fun a c' hrun => hf a c' (hrule.ok hc hrun)

/-- What follows a step of the cursor. -/
theorem Does.behind {rule : Rule α} {f : α → Method β} {g : α → Rule β} (hrule : Narrows rule)
    (hf : ∀ a, Does scope limit depth text size (f a) (g a)) :
    Does scope limit depth text size (Parser.onCursor rule >>= f) (rule >>= g) :=
  Does.bind (fun _ _ => rfl) hrule hf

variable {expression : Method Expr} {rule : Rule Expr}
  (hexp : Does scope limit depth text size expression rule) (hrule : Narrows rule)

include hexp hrule

/-- The method for names does what the rule does, if that for arguments does. -/
theorem identifier_does :
    Does scope limit depth text size (identifier expression) (Grammar.identifier scope rule) := by
  have hsteps := Narrows.stepwise
  refine .behind hsteps.here fun start => .behind (hsteps.scan _) fun text =>
    .behind (hsteps.eat _) fun called => ?_
  cases called with
  | false => exact fun _ _ => rfl
  | true =>
      refine .behind (hsteps.eat _) fun closed => ?_
      cases closed with
      | true => exact fun _ _ => rfl
      | false =>
          refine hexp.bind hrule fun argument => .behind (hsteps.eat _) fun closed => ?_
          cases closed with
          | false => exact fun _ _ => rfl
          | true =>
              simp only [if_true]
              split
              · exact fun _ _ => rfl
              · exact fun _ _ => rfl

/-- The method for bases does what the rule does, if that for expressions does.
-/
theorem base_does :
    Does scope limit depth text size (base expression) (Grammar.base scope rule) := by
  have hsteps := Narrows.stepwise
  refine .behind (hsteps.eat _) fun opened => ?_
  cases opened with
  | true =>
      refine .behind hsteps.consumedAt fun place => hexp.bind hrule fun inner =>
        .behind (hsteps.eat _) fun closed => ?_
      cases closed with
      | true => exact fun _ _ => rfl
      | false => exact fun _ _ => rfl
  | false =>
      refine .behind hsteps.current fun found => ?_
      cases found with
      | none => exact fun _ _ => rfl
      | some x =>
          simp only
          split
          · exact fun _ _ => rfl
          · split
            · exact identifier_does hexp hrule
            · exact fun _ _ => rfl

end Does

/-- A turn of a loop leaves less behind, wherever the cursor is placed. -/
theorem turn_narrower {operand : Rule Expr} (hop : Narrows operand) {signs : List Char}
    {c c₁ c₂ : Cursor} {sign : Char} {right : Expr} (hc : c.Placed)
    (hfound : eatAny signs c = .ok (some sign) c₁) (hright : operand c₁ = .ok right c₂) :
    c₂.rest.length < c.rest.length := by
  have hrest : c.rest ≠ [] := by
    intro hnil
    rw [eatAny_nil signs hnil] at hfound
    cases hfound
  have hstarted := hc.started hrest
  have hplaced := ((eatAny_moves signs).ok hstarted hfound).started.placed
  have hwithin := hop.ok ⟨hplaced, rfl, Nat.le_refl _⟩ hright
  exact Nat.lt_of_le_of_lt hwithin.length_le (eatAny_some_lt hstarted hfound)

section Loops

variable {scope : Scope} {limit depth : Int} {text : List Char} {size : Nat} {operand : Method Expr}
  {rule : Rule Expr} (hop : Does scope limit depth text size operand rule) (hrule : Narrows rule)

include hop hrule

/-- Given a turn more than characters are left, a loop goes on for as long as
the chain does. -/
theorem goOn_eq_chain (signs : List Char) (fuel : Nat) : ∀ {left : List Char} {tree : Expr}
    {c : Cursor}, c.Within text size → c.rest.length ≤ left.length → left.length < fuel →
    goOn operand signs fuel tree ⟨c, scope, limit, depth⟩ =
      onCursor (chain rule signs left tree) ⟨c, scope, limit, depth⟩ := by
  induction fuel with
  | zero => exact fun _ _ hfuel => absurd hfuel (Nat.not_lt_zero _)
  | succ fuel ih =>
      intro left tree c hc hleft hfuel
      rw [onCursor_congr (chain_eq rule signs tree hleft)]
      refine bind_eq_onCursor rfl fun found c₁ hfound => ?_
      cases found with
      | none => rfl
      | some sign =>
          have hwithin := (Narrows.eatAny signs).ok hc hfound
          refine bind_eq_onCursor rfl fun place c₂ hplace => ?_
          cases hplace
          refine bind_eq_onCursor (hop c₁ hwithin) fun right c₃ hright => ?_
          have hlt := turn_narrower hrule hc.placed hfound hright
          have htail := left.length_tail
          exact ih (hrule.ok hwithin hright) (by omega) (by omega)

/-- A loop is given enough where it may turn more often than characters are
left anywhere. -/
theorem operations_does (signs : List Char) {fuel : Nat} (hfuel : size < fuel) :
    Does scope limit depth text size (operand >>= goOn operand signs fuel)
      (operations rule signs) := by
  intro c hc
  refine bind_eq_onCursor (hop c hc) fun first c₁ hfirst => ?_
  have hwithin := hrule.ok hc hfirst
  exact goOn_eq_chain hop hrule signs fuel hwithin (Nat.le_refl _)
    (Nat.lt_of_le_of_lt hwithin.length_le hfuel)

end Loops

/-- What is read inside of one more factor is read with the count as it was. -/
theorem counted_does {scope : Scope} {limit depth : Int} {text : List Char} {size : Nat}
    {part : Method α} {rule : Rule α} (h : Does scope limit (depth + 1) text size part rule) :
    Does scope limit depth text size (counted part) rule := by
  intro c hc
  have hpart : part (enter ⟨c, scope, limit, depth⟩) = _ := h c hc
  unfold counted
  rw [hpart]
  unfold onCursor
  cases rule c <;> simp [leave]

section Levels

variable (scope : Scope) (limit : Int) {text : List Char} {size : Nat}

/-- Beyond the limit no factor is read. -/
theorem factor_beyond {depth : Int} (hdepth : limit < depth) (same bottom : Method Expr) :
    Does scope limit depth text size (factor same bottom) (fail (.tooDeep (toString limit))) := by
  intro c hc
  show (if limit < depth then _ else _ : Method Expr) _ = _
  rw [if_pos hdepth]

/-- The method for factors does what the rule does one level deeper, and takes
the depth back. -/
theorem factor_does {depth : Int} (hdepth : depth ≤ limit) {n : Nat} {same bottom : Method Expr}
    (hsame : Does scope limit depth text size same (Grammar.factor scope limit n))
    (hbottom : Does scope limit depth text size bottom
      (Grammar.base scope (expression (Grammar.factor scope limit n)))) :
    Does scope limit depth text size (factor same bottom) (Grammar.factor scope limit (n + 1)) := by
  have hsteps := Narrows.stepwise
  have hfactor : Narrows (Grammar.factor scope limit n) := hsteps.factor scope limit n
  intro c hc
  show (if limit < depth then _ else _ : Method Expr) _ = _
  rw [if_neg (Int.not_lt.mpr hdepth)]
  refine Does.behind (hsteps.eatAny _) (fun found => ?_) c hc
  cases found with
  | some sign =>
      exact .behind hsteps.consumedAt fun place => hsame.bind hfactor fun _ _ _ => rfl
  | none =>
      refine hbottom.bind (hsteps.base scope (hsteps.expression hfactor)) fun bottom =>
        .behind (hsteps.eat _) fun raised => ?_
      cases raised with
      | true => exact .behind hsteps.consumedAt fun place => hsame.bind hfactor fun _ _ _ => rfl
      | false => exact fun _ _ => rfl

/-- The methods for terms and expressions do what the rules do, if that for
factors does and the fuel is beyond the size of the text. -/
theorem expression_does {depth : Int} {fuel : Nat} {rule : Rule Expr} (hrule : Narrows rule)
    (hfactor : Does scope limit depth text size (read fuel .factor) rule) (hfuel : size < fuel) :
    Does scope limit depth text size (read (fuel + 1) .term) (term rule) ∧
    Does scope limit depth text size (read (fuel + 2) .expression) (expression rule) := by
  have hterm : Does scope limit depth text size (read (fuel + 1) .term) (term rule) :=
    operations_does hfactor hrule _ hfuel
  exact ⟨hterm, operations_does hterm (Narrows.stepwise.operations _ hrule) _
    (Nat.lt_succ_of_lt hfuel)⟩

/-- A factor needs fuel for the characters that are left, and four times for
each factor that may still nest: it calls a base, that an expression, that a
term, and that a factor. -/
theorem read_factor_does (n : Nat) : ∀ {depth : Int} {fuel : Nat}, allowance limit depth = n →
    size + 4 * n + 1 ≤ fuel →
    Does scope limit depth text size (read fuel .factor) (Grammar.factor scope limit n) := by
  induction n with
  | zero =>
      intro depth fuel hdepth hfuel
      obtain ⟨fuel, rfl⟩ := Nat.exists_eq_add_of_le' hfuel
      unfold allowance at hdepth
      exact counted_does (factor_beyond scope limit (by omega) _ _)
  | succ n ih =>
      intro depth fuel hdepth hfuel
      unfold allowance at hdepth
      have hinner : allowance limit (depth + 1) = n := by
        unfold allowance
        omega
      obtain ⟨fuel, rfl⟩ : ∃ less, fuel = less + 4 := ⟨fuel - 4, by omega⟩
      have hfactor : Narrows (Grammar.factor scope limit n) :=
        Narrows.stepwise.factor scope limit n
      have hexp := (expression_does scope limit hfactor (ih hinner (by omega : _ ≤ fuel))
        (by omega)).2
      have hbase : Does scope limit (depth + 1) text size (read (fuel + 3) .base) _ :=
        base_does hexp (Narrows.stepwise.expression hfactor)
      exact counted_does (factor_does scope limit (by omega) (ih hinner (by omega)) hbase)

end Levels

/-- **A method does what its rule does**, given enough fuel, on every parser
whose cursor is placed. -/
theorem read_eq_rule (p : Parser) (hp : p.cursor.Placed) (level : Level) {fuel : Nat}
    (hfuel : p.cursor.rest.length + 4 * allowance p.limit p.depth + 4 ≤ fuel) :
    read fuel level p = onCursor (level.rule p.scope p.limit p.depth) p := by
  obtain ⟨less, rfl⟩ : ∃ less, fuel = less + 3 := ⟨fuel - 3, by omega⟩
  have hfactor : Narrows (Grammar.factor p.scope p.limit (allowance p.limit p.depth)) :=
    Narrows.stepwise.factor _ _ _
  have hread : ∀ more, Does p.scope p.limit p.depth p.cursor.source p.cursor.rest.length
      (read (less + more) .factor) (Grammar.factor p.scope p.limit _) := fun more =>
    read_factor_does p.scope p.limit _ rfl (by omega)
  have hexp : ∀ more, _ := fun more =>
    expression_does p.scope p.limit hfactor (hread more) (by omega)
  have hwithin : p.cursor.Within p.cursor.source p.cursor.rest.length :=
    ⟨hp, rfl, Nat.le_refl _⟩
  cases level with
  | expression => exact (hexp 1).2 _ hwithin
  | term => exact (hexp 2).1 _ hwithin
  | factor => exact hread 3 _ hwithin
  | base =>
      exact base_does (hexp 0).2 (Narrows.stepwise.expression hfactor) _ hwithin

end Parser
end Reckon
