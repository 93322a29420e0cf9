import Reckon.Grammar
import Reckon.Proofs.Computation
import Reckon.Proofs.Spelling
/-!
# Rules move forward, and as far as they can

Rules are made of a few steps, so what holds of the steps and passes from step
to step holds of every rule (`Stepwise`).

Once the cursor stands in its source, no rule takes it back: whether it
succeeds or fails, the cursor lies in the same source, not before where it was
and not beyond the end (`factor_moves`).  A rule that succeeds has gone on as
far as it can: behind it stands neither a space nor an operator of its level or
of a tighter one (`factor_halts`, `expression_halts`).
-/

namespace Reckon

/-! ### A cursor in its source -/

namespace Cursor

/-- The cursor stands in its source, no longer before it. -/
structure Started (c : Cursor) : Prop where
  placed : c.Placed
  begun : 0 ≤ c.pos

/-- The first step from the start puts the cursor at the first character. -/
theorem started_advance_ofSource (source : String) : (ofSource source).advance.Started :=
  ⟨placed_advance (placed_ofSource source), by simp [advance, ofSource]⟩

/-- Behind a run that is skipped lies what is left when the run is dropped. -/
theorem rest_skip_takeWhile (c : Cursor) (p : Char → Bool) :
    (c.skip (c.rest.takeWhile p)).rest = c.rest.dropWhile p := by
  have hsplit := List.takeWhile_append_dropWhile (p := p) (l := c.rest)
  calc c.rest.drop (c.rest.takeWhile p).length
      = (c.rest.takeWhile p ++ c.rest.dropWhile p).drop (c.rest.takeWhile p).length := by
        rw [hsplit]
    _ = c.rest.dropWhile p := List.drop_left

/-- Skipping spaces leaves what stands behind them. -/
theorem rest_skipSpaces (c : Cursor) : c.skipSpaces.rest = behindSpaces c.rest :=
  c.rest_skip_takeWhile _

/-- Where no space stands there is nothing to skip. -/
theorem skipSpaces_of_head?_ne {c : Cursor} (h : c.rest.head? ≠ some ' ') : c.skipSpaces = c := by
  have hnone : c.rest.takeWhile (· == ' ') = [] := by
    cases hrest : c.rest with
    | nil => rfl
    | cons x rest =>
        have hx : x ≠ ' ' := by simpa [hrest] using h
        simp [hx]
  simp [skipSpaces, skip, hnone]

/-- Behind a run that is scanned lies what is left when the run is dropped. -/
theorem rest_scan (c : Cursor) (p : Char → Bool) : (c.scan p).2.rest = c.rest.dropWhile p :=
  c.rest_skip_takeWhile _

namespace Started

variable {c : Cursor} (h : c.Started)

include h

/-- Spaces are skipped within the source. -/
theorem skipSpaces : c.skipSpaces.Started :=
  ⟨placed_skipSpaces h.placed, Int.add_nonneg h.begun (Int.natCast_nonneg _)⟩

/-- Runs are scanned within the source. -/
theorem scan (p : Char → Bool) : (c.scan p).2.Started :=
  ⟨placed_scan h.placed p, Int.add_nonneg h.begun (Int.natCast_nonneg _)⟩

/-- A step stays within the source, or goes on behind it. -/
theorem advance : c.advance.Started :=
  ⟨placed_advance h.placed, Int.add_nonneg h.begun (by decide)⟩

/-- What is left is the source from the position on. -/
theorem rest_eq : c.rest = c.source.drop c.pos.toNat := by
  rw [h.placed.rest_eq, if_neg (Int.not_lt.mpr h.begun)]

/-- What stands at the position is the head of the rest. -/
theorem getElem?_pos : c.source[c.pos.toNat]? = c.rest.head? := by
  rw [h.rest_eq, List.head?_drop]

/-- As much is left as lies between the position and the end. -/
theorem length_rest : c.rest.length = c.source.length - c.pos.toNat := by
  rw [h.rest_eq, List.length_drop]

/-- A step takes one character away from the rest. -/
theorem rest_advance : c.advance.rest = c.rest.tail := by
  have hbegun : ¬ c.pos < 0 := Int.not_lt.mpr h.begun
  simp [Cursor.advance, hbegun]

/-- At the end nothing is left. -/
theorem atEnd_iff : c.atEnd ↔ c.rest = [] := by
  have hpos := h.begun
  simp only [atEnd, h.rest_eq, List.drop_eq_nil_iff, decide_eq_true_eq]
  omega

end Started

end Cursor

namespace Grammar

/-! ### Running rules -/

/-- A mark is eaten if it stands behind the spaces; if not, only the spaces are
gone. -/
theorem eat_eq (x : Char) (c : Cursor) : eat x c =
    if c.skipSpaces.rest.head? = some x then .ok true c.skipSpaces.advance
    else .ok false c.skipSpaces := by
  show EStateM.Result.ok (c.eat [x]).1 (c.eat [x]).2 = _
  have hcur : c.skipSpaces.current.toList = [x] ↔ c.skipSpaces.rest.head? = some x := by
    cases hhead : c.skipSpaces.rest.head? <;> simp [Cursor.current, hhead]
  simp only [Cursor.eat, hcur]
  split <;> rfl

/-- What `eat` does to the rest, whether it finds the mark or not. -/
theorem eat_cases {c : Cursor} (h : c.Started) (x : Char) :
    (∃ c' rest, eat x c = .ok true c' ∧ c'.Started ∧ behindSpaces c.rest = x :: rest ∧
      c'.rest = rest) ∨
    (∃ c', eat x c = .ok false c' ∧ c'.Started ∧ c'.rest = behindSpaces c.rest ∧
      c'.rest.head? ≠ some x) := by
  rw [eat_eq]
  have hrest := c.rest_skipSpaces
  by_cases hhead : c.skipSpaces.rest.head? = some x
  · left
    obtain ⟨rest, hcons⟩ := List.head?_eq_some_iff.mp hhead
    refine ⟨_, rest, if_pos hhead, h.skipSpaces.advance, hrest.symm.trans hcons, ?_⟩
    rw [h.skipSpaces.rest_advance, hcons, List.tail_cons]
  · right
    exact ⟨_, if_neg hhead, h.skipSpaces, hrest, hhead⟩

/-- The cursor itself can be looked at without moving it. -/
theorem get_eq (c : Cursor) : (get : Rule Cursor) c = .ok c c := rfl

/-- The current character is the head of the rest. -/
theorem current_eq (c : Cursor) : current c = .ok c.rest.head? c := rfl

/-- A number is the run that stands there. -/
theorem number_eq (c : Cursor) : number c =
    (match Double.ofNumeral? (c.scan Cursor.isNumeric).1 with
      | some value => return .constant c.pos value
      | none => failAt c.pos (.malformedNumber (String.ofList (c.scan Cursor.isNumeric).1)) :
      Rule Expr) (c.scan Cursor.isNumeric).2 := rfl

/-- A name is the run that stands there; what follows decides what it names. -/
theorem identifier_eq (scope : Scope) (expression : Rule Expr) (c : Cursor) :
    identifier scope expression c =
      (do
        if ← eat '(' then
          if ← eat ')' then method (String.ofList (c.scan Cursor.isAlphabetic).1) c.pos
          else call expression (String.ofList (c.scan Cursor.isAlphabetic).1) c.pos
        else reference scope (String.ofList (c.scan Cursor.isAlphabetic).1) c.pos :
        Rule Expr) (c.scan Cursor.isAlphabetic).2 := rfl

/-- At the end there is no operator. -/
theorem eatAny_nil (signs : List Char) {c : Cursor} (hrest : c.rest = []) :
    eatAny signs c = .ok none c := by
  have hskip : c.skipSpaces = c := Cursor.skipSpaces_of_head?_ne (by simp [hrest])
  induction signs with
  | nil => rfl
  | cons y signs ih =>
      have heat : eat y c = .ok false c := by
        rw [eat_eq, hskip, hrest]
        rfl
      exact (bind_of_ok heat _).trans ih

/-- One turn of a chain that may take as many turns as characters are left. -/
theorem chain_eq (operand : Rule Expr) (signs : List Char) {left : List Char} (tree : Expr)
    {c : Cursor} (hleft : c.rest.length ≤ left.length) : chain operand signs left tree c =
      (do
        match ← eatAny signs with
        | none => return tree
        | some sign =>
          let place ← consumedAt
          let right ← operand
          chain operand signs left.tail (.binary place sign.toString tree right) : Rule Expr) c := by
  cases left with
  | nil =>
      have hrest : c.rest = [] := List.eq_nil_of_length_eq_zero (Nat.le_zero.mp hleft)
      rw [bind_of_ok (eatAny_nil signs hrest)]
      rfl
  | cons _ left => rfl

/-! ### What holds of the steps holds of the rules -/

/-- A property of rules that the steps have and that passes from the parts of a
sequence to the whole.  A chain looks at the rest of its source to know how
many turns it may take, so it counts as a step. -/
structure Stepwise (Φ : {α : Type} → Rule α → Prop) : Prop where
  pure : ∀ {α : Type} (a : α), Φ (pure a : Rule α)
  bind : ∀ {α β : Type} {x : Rule α} {f : α → Rule β}, Φ x → (∀ a, Φ (f a)) → Φ (x >>= f)
  failAt : ∀ {α : Type} (position : Int) (fault : ParseFault),
    Φ (failAt position fault : Rule α)
  here : Φ here
  current : Φ current
  eat : ∀ x, Φ (eat x)
  scan : ∀ p, Φ (scan p)
  operations : ∀ {operand : Rule Expr} (signs : List Char), Φ operand →
    Φ (operations operand signs)

namespace Stepwise

variable {Φ : {α : Type} → Rule α → Prop} (h : Stepwise Φ)

include h

/-- To fail where the cursor stands is to look at the place and to fail there.
-/
theorem fail {α : Type} (fault : ParseFault) : Φ (Grammar.fail fault : Rule α) :=
  h.bind h.here fun _ => h.failAt _ _

/-- The place of the character just eaten is found by a look at the cursor. -/
theorem consumedAt : Φ consumedAt :=
  h.bind h.here fun _ => h.pure _

/-- To eat one of several marks is to try each of them. -/
theorem eatAny (signs : List Char) : Φ (eatAny signs) := by
  induction signs with
  | nil => exact h.pure _
  | cons y signs ih =>
      refine h.bind (h.eat y) fun found => ?_
      cases found with
      | true => exact h.pure _
      | false => exact ih

/-- A number is a scan, with a failure for what is no numeral. -/
theorem number : Φ number := by
  refine h.bind h.here fun start => h.bind (h.scan _) fun text => ?_
  cases Double.ofNumeral? text with
  | some value => exact h.pure _
  | none => exact h.failAt _ _

section Rules

variable (scope : Scope)

/-- A variable takes no step of the cursor, and fails if it is unbound. -/
theorem reference (name : String) (start : Int) : Φ (reference scope name start) := by
  unfold Grammar.reference
  cases scope.find? name with
  | some producer => exact h.pure _
  | none => exact h.failAt _ _

/-- A method takes no step of the cursor, and fails if it is unknown. -/
theorem method (name : String) (start : Int) : Φ (method name start) := by
  unfold Grammar.method
  split
  · exact h.pure _
  · exact h.failAt _ _

variable {expression : Rule Expr} (hexp : Φ expression)

include hexp

/-- A call is its argument, the parenthesis behind it and a look-up of its name.
-/
theorem call (name : String) (start : Int) : Φ (call expression name start) := by
  refine h.bind hexp fun argument => h.bind (h.eat _) fun closed => ?_
  cases closed with
  | false => exact h.fail _
  | true =>
      simp only [if_true]
      split
      · exact h.pure _
      · exact h.failAt _ _

/-- A name is a scan, followed by one of the three things that it can be. -/
theorem identifier : Φ (identifier scope expression) := by
  refine h.bind h.here fun start => h.bind (h.scan _) fun text =>
    h.bind (h.eat _) fun called => ?_
  cases called with
  | false => exact h.reference scope _ _
  | true =>
      refine h.bind (h.eat _) fun closed => ?_
      cases closed with
      | true => exact h.method _ _
      | false => exact h.call hexp _ _

/-- A base is a group, a number or a name, or it fails. -/
theorem base : Φ (base scope expression) := by
  refine h.bind (h.eat _) fun opened => ?_
  cases opened with
  | true =>
      refine h.bind h.consumedAt fun place => h.bind hexp fun inner =>
        h.bind (h.eat _) fun closed => ?_
      cases closed with
      | true => exact h.pure _
      | false => exact h.fail _
  | false =>
      refine h.bind h.current fun found => ?_
      cases found with
      | none => exact h.fail _
      | some d =>
          simp only
          split
          · exact h.number
          · split
            · exact h.identifier scope hexp
            · exact h.fail _

end Rules

/-- An expression is two levels of operations over factors. -/
theorem expression {factor : Rule Expr} (hfactor : Φ factor) : Φ (expression factor) :=
  h.operations _ (h.operations _ hfactor)

/-- **What holds of the steps holds of the rules.** -/
theorem factor (scope : Scope) (limit : Int) (n : Nat) : Φ (factor scope limit n) := by
  induction n with
  | zero => exact h.fail _
  | succ n ih =>
      refine h.bind (h.eatAny _) fun found => ?_
      cases found with
      | some sign => exact h.bind h.consumedAt fun place => h.bind ih fun operand => h.pure _
      | none =>
          refine h.bind (h.base scope (h.expression ih)) fun bottom =>
            h.bind (h.eat _) fun raised => ?_
          cases raised with
          | true => exact h.bind h.consumedAt fun place => h.bind ih fun exponent => h.pure _
          | false => exact h.pure _

end Stepwise

/-! ### Where a rule leaves the cursor -/

end Grammar

/-- The cursor `c'` lies in the source of `c`, not before it, and not beyond the
end unless `c` does. -/
structure Cursor.Ahead (c c' : Cursor) : Prop where
  started : c'.Started
  source_eq : c'.source = c.source
  pos_le : c.pos ≤ c'.pos
  within : c.pos ≤ c.source.length → c'.pos ≤ c'.source.length

namespace Cursor.Ahead

variable {c c₁ c₂ : Cursor}

/-- The cursor is level with itself. -/
theorem refl (h : c.Started) : Ahead c c :=
  ⟨h, rfl, Int.le_refl _, id⟩

/-- Ahead of what is ahead. -/
theorem trans (h : Ahead c c₁) (h' : Ahead c₁ c₂) : Ahead c c₂ :=
  ⟨h'.started, h'.source_eq.trans h.source_eq, Int.le_trans h.pos_le h'.pos_le,
    h'.within ∘ h.within⟩

/-- Further ahead not more is left. -/
theorem length_rest_le (hc : c.Started) (h : Ahead c c₁) : c₁.rest.length ≤ c.rest.length := by
  rw [hc.length_rest, h.started.length_rest, h.source_eq]
  have hpos := h.pos_le
  omega

/-- A run of what is left may be skipped. -/
theorem ahead_skip (hc : c.Started) {run : List Char} (hstarted : (c.skip run).Started)
    (hrun : run.length ≤ c.rest.length) : c.Ahead (c.skip run) := by
  have hbegun := hc.begun
  rw [hc.length_rest] at hrun
  refine ⟨hstarted, rfl, ?_, fun hwithin => ?_⟩
  · simp only [skip]
    omega
  · simp only [skip]
    omega

/-- Skipping spaces goes forward. -/
theorem ahead_skipSpaces (hc : c.Started) : c.Ahead c.skipSpaces :=
  ahead_skip hc hc.skipSpaces (List.takeWhile_sublist _).length_le

/-- Scanning goes forward. -/
theorem ahead_scan (hc : c.Started) (p : Char → Bool) : c.Ahead (c.scan p).2 :=
  ahead_skip hc (hc.scan p) (List.takeWhile_sublist _).length_le

/-- Where a character is left the cursor may go past it. -/
theorem ahead_advance (hc : c.Started) {x : Char} {rest : List Char} (hrest : c.rest = x :: rest) :
    c.Ahead c.advance := by
  have hbegun := hc.begun
  have hlength := hc.length_rest
  rw [hrest, List.length_cons] at hlength
  refine ⟨hc.advance, rfl, Int.le_add_one (Int.le_refl _), fun _ => ?_⟩
  simp only [advance]
  omega

end Cursor.Ahead

namespace Grammar

open Cursor.Ahead

/-- The cursor that a rule leaves behind, on success or on failure. -/
def leaves {α : Type} (rule : Rule α) (c : Cursor) : Cursor :=
  match rule c with
  | .ok _ c' => c'
  | .error _ c' => c'

/-- The rule never takes the cursor back. -/
def Moves {α : Type} (rule : Rule α) : Prop :=
  ∀ c : Cursor, c.Started → c.Ahead (leaves rule c)

/-- A rule that leaves the cursor alone takes it nowhere back. -/
theorem Moves.of_stay {α : Type} {rule : Rule α} (h : ∀ c, leaves rule c = c) : Moves rule := by
  intro c hc
  rw [h]
  exact .refl hc

/-- One rule behind another goes forward if both do. -/
theorem Moves.bind {α β : Type} {x : Rule α} {f : α → Rule β} (hx : Moves x)
    (hf : ∀ a, Moves (f a)) : Moves (x >>= f) := by
  intro c hc
  have hahead := hx c hc
  show c.Ahead (leaves (EStateM.bind x f) c)
  unfold leaves EStateM.bind at *
  cases hrun : x c with
  | ok a c₁ =>
      simp only [hrun] at hahead ⊢
      exact hahead.trans (hf a c₁ hahead.started)
  | error e c₁ => simpa only [hrun] using hahead

/-- The cursor of a success is ahead. -/
theorem Moves.ok {α : Type} {rule : Rule α} (h : Moves rule) {c c' : Cursor} {a : α}
    (hc : c.Started) (hok : rule c = .ok a c') : c.Ahead c' := by
  simpa only [leaves, hok] using h c hc

/-- An answer at once leaves the cursor alone. -/
theorem pure_moves {α : Type} (a : α) : Moves (pure a : Rule α) :=
  .of_stay fun _ => rfl

/-- A failure leaves the cursor alone. -/
theorem failAt_moves {α : Type} (position : Int) (fault : ParseFault) :
    Moves (failAt position fault : Rule α) :=
  .of_stay fun _ => rfl

/-- A look at the position leaves the cursor alone. -/
theorem here_moves : Moves here :=
  .of_stay fun _ => rfl

/-- A look at the cursor leaves it alone. -/
theorem get_moves : Moves (get : Rule Cursor) :=
  .of_stay fun _ => rfl

/-- To eat a mark goes forward, also when only spaces are skipped. -/
theorem eat_moves (x : Char) : Moves (eat x) := by
  intro c hc
  rw [leaves, eat_eq]
  by_cases hhead : c.skipSpaces.rest.head? = some x
  · rw [if_pos hhead]
    obtain ⟨rest, hcons⟩ := List.head?_eq_some_iff.mp hhead
    exact (ahead_skipSpaces hc).trans (ahead_advance hc.skipSpaces hcons)
  · rw [if_neg hhead]
    exact ahead_skipSpaces hc

/-- To scan a run goes forward. -/
theorem scan_moves (p : Char → Bool) : Moves (scan p) :=
  fun _ hc => ahead_scan hc p

/-- To try several marks goes forward. -/
theorem eatAny_moves (signs : List Char) : Moves (eatAny signs) := by
  induction signs with
  | nil => exact pure_moves _
  | cons y signs ih =>
      refine (eat_moves y).bind fun found => ?_
      cases found with
      | true => exact pure_moves _
      | false => exact ih

/-- A chain goes forward if its operands do, however many turns it takes. -/
theorem chain_moves {operand : Rule Expr} (hop : Moves operand) (signs left : List Char) :
    ∀ tree, Moves (chain operand signs left tree) := by
  induction left with
  | nil => exact fun tree => pure_moves _
  | cons _ left ih =>
      intro tree
      refine (eatAny_moves signs).bind fun found => ?_
      cases found with
      | none => exact pure_moves _
      | some sign =>
          exact (here_moves.bind fun _ => pure_moves _).bind fun place => hop.bind fun right => ih _

/-- A level of operations goes forward if its operands do. -/
theorem operations_moves {operand : Rule Expr} (hop : Moves operand) (signs : List Char) :
    Moves (operations operand signs) :=
  hop.bind fun first => get_moves.bind fun _ => chain_moves hop signs _ first

/-- **To go forward passes from step to step.** -/
theorem moves_stepwise : Stepwise Moves where
  pure := pure_moves
  bind := Moves.bind
  failAt := failAt_moves
  here := here_moves
  current := get_moves.bind fun _ => pure_moves _
  eat := eat_moves
  scan := scan_moves
  operations signs hop := operations_moves hop signs

/-- **Every rule moves forward**, that of factors and all that are made of it. -/
theorem factor_moves (scope : Scope) (limit : Int) (n : Nat) : Moves (factor scope limit n) :=
  moves_stepwise.factor scope limit n

/-- An expression goes forward, under any limit. -/
theorem expression_moves (scope : Scope) (limit : Int) (n : Nat) :
    Moves (expression (factor scope limit n)) :=
  moves_stepwise.expression (factor_moves scope limit n)

/-! ### How far a rule goes -/

/-- An operator that was eaten is gone from the rest. -/
theorem eatAny_some_lt {signs : List Char} {c c' : Cursor} {sign : Char} (hc : c.Started)
    (hok : eatAny signs c = .ok (some sign) c') : c'.rest.length < c.rest.length := by
  induction signs generalizing c with
  | nil => cases hok
  | cons y signs ih =>
      obtain ⟨eaten, c₁, heat, hok⟩ := bind_eq_ok.mp hok
      obtain ⟨c₂, rest, hrun, -, hcons, hrest⟩ | ⟨c₂, hrun, hstarted, hrest, -⟩ := eat_cases hc y
      · cases heat.symm.trans hrun
        cases hok
        have hle : (behindSpaces c.rest).length ≤ c.rest.length :=
          (List.dropWhile_sublist _).length_le
        rw [hcons, List.length_cons, ← hrest] at hle
        exact hle
      · cases heat.symm.trans hrun
        have hle := ((eat_moves y).ok hc heat).length_rest_le hc
        exact Nat.lt_of_lt_of_le (ih hstarted hok) hle

/-- A turn of a chain leaves less than there was. -/
theorem turn_lt {operand : Rule Expr} (hop : Moves operand) {signs : List Char}
    {c c₁ c₂ c₃ : Cursor} {sign : Char} {place : Int} {right : Expr} (hc : c.Started)
    (hfound : eatAny signs c = .ok (some sign) c₁) (hplace : consumedAt c₁ = .ok place c₂)
    (hright : operand c₂ = .ok right c₃) : c₃.rest.length < c.rest.length := by
  have hstarted := ((eatAny_moves signs).ok hc hfound).started
  cases hplace
  exact Nat.lt_of_le_of_lt ((hop.ok hstarted hright).length_rest_le hstarted)
    (eatAny_some_lt hc hfound)

/-- Where none of the operators was eaten the spaces are gone, and none of the
operators stands. -/
theorem eatAny_none_rest {signs : List Char} (hsigns : signs ≠ []) {c c' : Cursor}
    (hc : c.Started) (hok : eatAny signs c = .ok none c') :
    c'.rest = behindSpaces c.rest ∧ ∀ x ∈ signs, c'.rest.head? ≠ some x := by
  induction signs generalizing c with
  | nil => exact absurd rfl hsigns
  | cons y signs ih =>
      obtain ⟨eaten, c₁, heat, hok⟩ := bind_eq_ok.mp hok
      obtain ⟨c₂, rest, hrun, -⟩ | ⟨c₂, hrun, hstarted, hrest, hne⟩ := eat_cases hc y
      · cases heat.symm.trans hrun
        cases hok
      · cases heat.symm.trans hrun
        by_cases hnil : signs = []
        · subst hnil
          cases hok
          exact ⟨hrest, by simpa using hne⟩
        · obtain ⟨hmore, hnone⟩ := ih hnil hstarted hok
          have hsame : c'.rest = c₁.rest := by
            rw [hmore, hrest]
            exact behindSpaces_of_head?_ne (head?_behindSpaces_ne _)
          exact ⟨hsame.trans hrest, List.forall_mem_cons.mpr ⟨hsame ▸ hne, hnone⟩⟩

/-- Behind a rule that succeeds stands neither a space nor one of the signs. -/
def Halts (signs : List Char) (rule : Rule Expr) : Prop :=
  ∀ ⦃c c' : Cursor⦄ ⦃tree : Expr⦄, c.Started → rule c = .ok tree c' →
    ∀ x ∈ ' ' :: signs, c'.rest.head? ≠ some x

section Halts

variable {operand : Rule Expr} (hop : Moves operand) {signs tighter : List Char}
  (hsigns : signs ≠ []) (hhalts : Halts tighter operand)

include hop hsigns hhalts

/-- Each turn of a chain consumes an operator, so a chain that may take as many
turns as characters are left goes on to the last operator. -/
theorem chain_halts (left : List Char) : ∀ {before tree : Expr} {c c' : Cursor}, c.Started →
    c.rest.length ≤ left.length → (∀ x ∈ ' ' :: tighter, c.rest.head? ≠ some x) →
    chain operand signs left before c = .ok tree c' →
    ∀ x ∈ ' ' :: (signs ++ tighter), c'.rest.head? ≠ some x := by
  induction left with
  | nil =>
      intro before tree c c' hc hlength hhead hok x hx
      cases hok
      simp [List.eq_nil_of_length_eq_zero (Nat.le_zero.mp hlength)]
  | cons _ left ih =>
      intro before tree c c' hc hlength hhead hok
      obtain ⟨found, c₁, heat, hok⟩ := bind_eq_ok.mp hok
      have hstarted := ((eatAny_moves signs).ok hc heat).started
      cases found with
      | none =>
          cases hok
          obtain ⟨hrest, hnone⟩ := eatAny_none_rest hsigns hc heat
          rw [behindSpaces_of_head?_ne (hhead ' ' List.mem_cons_self)] at hrest
          intro x hx
          rw [List.mem_cons, List.mem_append] at hx
          rcases hx with rfl | hx | hx
          · exact hrest ▸ hhead ' ' List.mem_cons_self
          · exact hnone x hx
          · exact hrest ▸ hhead x (List.mem_cons_of_mem _ hx)
      | some sign =>
          obtain ⟨place, c₂, hplace, hok⟩ := bind_eq_ok.mp hok
          cases hplace
          obtain ⟨right, c₃, hright, hok⟩ := bind_eq_ok.mp hok
          have hlt := turn_lt hop hc heat rfl hright
          rw [List.length_cons] at hlength
          exact ih (hop.ok hstarted hright).started (by omega) (hhalts hstarted hright) hok

/-- A level of operations stops in front of no sign of its own, nor of one that
its operands stop at. -/
theorem operations_halts : Halts (signs ++ tighter) (operations operand signs) := by
  intro c c' tree hc hok
  obtain ⟨first, c₁, hfirst, hok⟩ := bind_eq_ok.mp hok
  obtain ⟨c₂, c₃, hget, hok⟩ := bind_eq_ok.mp hok
  cases hget
  exact chain_halts hop hsigns hhalts _ (hop.ok hc hfirst).started (Nat.le_refl _)
    (hhalts hc hfirst) hok

end Halts

/-- **Behind a factor stands neither a space nor an exponent.** -/
theorem factor_halts (scope : Scope) (limit : Int) (n : Nat) :
    Halts ['^'] (factor scope limit n) := by
  induction n with
  | zero =>
      intro c c' tree hc hok
      cases hok
  | succ n ih =>
      intro c c' tree hc hok
      obtain ⟨found, c₁, heat, hok⟩ := bind_eq_ok.mp hok
      have hstarted := ((eatAny_moves _).ok hc heat).started
      cases found with
      | some sign =>
          obtain ⟨place, c₂, hplace, hok⟩ := bind_eq_ok.mp hok
          cases hplace
          obtain ⟨operand, c₃, hoperand, hok⟩ := bind_eq_ok.mp hok
          cases hok
          exact ih hstarted hoperand
      | none =>
          obtain ⟨bottom, c₂, hbottom, hok⟩ := bind_eq_ok.mp hok
          have hmoves := moves_stepwise.base scope (expression_moves scope limit n)
          have hstarted := (hmoves.ok hstarted hbottom).started
          obtain ⟨raised, c₃, heat, hok⟩ := bind_eq_ok.mp hok
          obtain ⟨c₄, rest, hrun, hstarted', -⟩ | ⟨c₄, hrun, -, hrest, hne⟩ :=
            eat_cases hstarted '^'
          · cases heat.symm.trans hrun
            obtain ⟨place, c₅, hplace, hok⟩ := bind_eq_ok.mp hok
            cases hplace
            obtain ⟨exponent, c₆, hexponent, hok⟩ := bind_eq_ok.mp hok
            cases hok
            exact ih hstarted' hexponent
          · cases heat.symm.trans hrun
            cases hok
            simpa [hne] using hrest ▸ head?_behindSpaces_ne _

/-- Behind a term stands no sign of a product or a power. -/
theorem term_halts (scope : Scope) (limit : Int) (n : Nat) :
    Halts ['*', '/', '^'] (term (factor scope limit n)) :=
  operations_halts (factor_moves scope limit n) (by simp) (factor_halts scope limit n)

/-- Behind an expression stands no operator at all. -/
theorem expression_halts (scope : Scope) (limit : Int) (n : Nat) :
    Halts ['+', '-', '*', '/', '^'] (expression (factor scope limit n)) := by
  show Halts (['+', '-'] ++ ['*', '/', '^']) _
  exact operations_halts (operations_moves (factor_moves scope limit n) _) (by simp)
    (term_halts scope limit n)

end Grammar

end Reckon
