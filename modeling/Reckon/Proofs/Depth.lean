import Mathlib.Control.Monad.Basic
import Reckon.Proofs.Failure
/-!
# The limit of depth

A rule that may nest more factors does the same as one that may nest fewer, on
every source that does not nest too deeply for the latter: the limit cuts off,
and changes nothing else (`factor_extends`).

Every factor inside of another begins behind a character of its own, a sign, a
caret or a parenthesis.  So where too many factors nest there are as many
characters as may nest factors (`Fails.needed_le`), and a limit above the
length of a source is never reached.
-/

namespace Reckon

namespace Grammar

/-! ### More room -/

/-- A rule ends because factors nest too deeply. -/
def CutOff {α : Type} : EStateM.Result ParseError Cursor α → Prop
  | .ok _ _ => False
  | .error e _ => e.fault.kind = .nestingTooDeep

/-- Wherever the narrow rule is not cut off, the wide one does the same. -/
def Extends {α : Type} (narrow wide : Rule α) : Prop :=
  ∀ c, ¬ CutOff (narrow c) → wide c = narrow c

namespace Extends

variable {α β : Type}

/-- A rule extends itself. -/
theorem refl (rule : Rule α) : Extends rule rule :=
  fun _ _ => rfl

/-- Sequences are extended part by part. -/
theorem bind {x x' : Rule α} {f f' : α → Rule β} (hx : Extends x x')
    (hf : ∀ a, Extends (f a) (f' a)) : Extends (x >>= f) (x' >>= f') := by
  intro c hcut
  cases hrun : x c with
  | ok a c₁ =>
      have hrun' : x' c = .ok a c₁ := by
        rw [hx c (by simp [hrun, CutOff]), hrun]
      rw [bind_of_ok hrun] at hcut
      rw [bind_of_ok hrun, bind_of_ok hrun', hf a c₁ hcut]
  | error e c₁ =>
      have hfail : (x >>= f) c = .error e c₁ := bind_eq_error.mpr (.inl hrun)
      rw [hfail] at hcut ⊢
      have hrun' : x' c = .error e c₁ := by
        rw [hx c (by rwa [hrun]), hrun]
      exact bind_eq_error.mpr (.inl hrun')

/-- What follows the same first part. -/
theorem behind (x : Rule α) {f f' : α → Rule β} (hf : ∀ a, Extends (f a) (f' a)) :
    Extends (x >>= f) (x >>= f') :=
  (refl x).bind hf

end Extends

section Rules

variable {narrow wide : Rule Expr} (h : Extends narrow wide)

include h

/-- A call is extended if its argument is. -/
theorem call_extends (name : String) (start : Int) :
    Extends (call narrow name start) (call wide name start) :=
  h.bind fun _ => .refl _

/-- A name is extended if the arguments of calls are. -/
theorem identifier_extends (scope : Scope) :
    Extends (identifier scope narrow) (identifier scope wide) := by
  refine .behind _ fun start => .behind _ fun name => .behind _ fun called => ?_
  cases called with
  | false => exact .refl _
  | true =>
      refine .behind _ fun closed => ?_
      cases closed with
      | true => exact .refl _
      | false => exact call_extends h _ _

/-- A base is extended if the expressions in it are. -/
theorem base_extends (scope : Scope) : Extends (base scope narrow) (base scope wide) := by
  refine .behind _ fun opened => ?_
  cases opened with
  | true => exact .behind _ fun place => h.bind fun inner => .refl _
  | false =>
      refine .behind _ fun found => ?_
      cases found with
      | none => exact .refl _
      | some x =>
          simp only
          split
          · exact .refl _
          · split
            · exact identifier_extends h scope
            · exact .refl _

/-- A chain is extended turn by turn. -/
theorem chain_extends (signs left : List Char) :
    ∀ tree, Extends (chain narrow signs left tree) (chain wide signs left tree) := by
  induction left with
  | nil => exact fun tree => .refl _
  | cons _ left ih =>
      intro tree
      refine .behind _ fun found => ?_
      cases found with
      | none => exact .refl _
      | some sign => exact .behind _ fun place => h.bind fun right => ih _

/-- A level of operations is extended if its operands are. -/
theorem operations_extends (signs : List Char) :
    Extends (operations narrow signs) (operations wide signs) :=
  h.bind fun first => .behind _ fun _ => chain_extends h signs _ first

/-- An expression is extended if its factors are. -/
theorem expression_extends : Extends (expression narrow) (expression wide) :=
  operations_extends (operations_extends h _) _

end Rules

/-- **With more room a factor is read the same**, unless it is cut off.  The
limits only give the fault its wording. -/
theorem factor_extends (scope : Scope) (limit limit' : Int) {n n' : Nat} (hn : n ≤ n') :
    Extends (factor scope limit n) (factor scope limit' n') := by
  induction n generalizing n' with
  | zero => exact fun _ hcut => absurd rfl hcut
  | succ n ih =>
      obtain ⟨m, rfl⟩ := Nat.exists_eq_add_one.mpr (Nat.lt_of_lt_of_le n.succ_pos hn)
      have hfactor := ih (Nat.le_of_succ_le_succ hn)
      refine .behind _ fun found => ?_
      cases found with
      | some sign => exact .behind _ fun place => hfactor.bind fun operand => .refl _
      | none =>
          refine (base_extends (expression_extends hfactor) scope).bind fun bottom =>
            .behind _ fun raised => ?_
          cases raised with
          | true => exact .behind _ fun place => hfactor.bind fun exponent => .refl _
          | false => exact .refl _

/-- With more room a whole source is read the same. -/
theorem whole_extends (scope : Scope) {limit limit' : Int} (h : limit ≤ limit') :
    Extends (whole scope limit) (whole scope limit') := by
  have hallowance : allowance limit 0 ≤ allowance limit' 0 := by
    unfold allowance
    omega
  exact (expression_extends (factor_extends scope limit limit' hallowance)).bind fun _ => .refl _

/-! ### Room enough -/

/-- What is eaten is gone from the rest. -/
theorem Eaten.length_rest_lt {x : Char} {c c' : Cursor} (h : Eaten x c c') :
    c'.rest.length < c.rest.length := by
  have hpos := h.pos_eq
  have hskip := (Cursor.Ahead.ahead_skipSpaces h.started).pos_le
  have hinside := h.passes.ahead.within h.inside
  have hbegun := h.started.begun
  rw [h.started.length_rest, h.passes.ahead.started.length_rest]
  rw [h.passes.ahead.source_eq] at hinside ⊢
  omega

/-- How many characters are left, at least, to a part in which more than `n`
factors nest: one for each of them but the outermost.  In a base that one lies
behind a parenthesis, too. -/
def needed : Part → Nat → Nat
  | .base, n => n + 1
  | _, n => n

/-- The operands of both ranks need as much as their factors. -/
theorem needed_operand (r : Rank) (n : Nat) : needed r.operand n = n := by
  cases r <;> rfl

variable {scope : Scope} {limit : Int} {n : Nat}

/-- **Factors that nest too deeply have a character each.** -/
theorem Fails.needed_le {part : Part} {c c' : Cursor} {e : ParseError}
    (h : Fails scope limit part n c e c') (hc : c.Started)
    (hkind : e.fault.kind = .nestingTooDeep) : needed part n ≤ c.rest.length := by
  induction h with
  | spaces h _ ih =>
      exact Nat.le_trans (ih h.ahead.started hkind) (h.ahead.length_rest_le hc)
  | first _ ih =>
      rw [needed_operand] at ih
      exact ih hc hkind
  | behind hp _ ih =>
      exact Nat.le_trans (ih hp.ahead.started hkind) (hp.ahead.length_rest_le hc)
  | operand _ h _ ih =>
      rw [needed_operand] at ih
      exact Nat.le_trans (ih h.entry.started hkind) (Nat.le_of_lt h.length_rest_lt)
  | later _ h hp _ ih =>
      have hahead := h.passes.ahead.trans hp.ahead
      exact Nat.le_trans (ih hahead.started hkind) (hahead.length_rest_le hc)
  | tooDeep => exact Nat.zero_le _
  | signed _ h _ ih => exact Nat.lt_of_le_of_lt (ih h.entry.started hkind) h.length_rest_lt
  | bottom _ ih => exact ih hc hkind
  | exponent hp h _ ih =>
      have hlt := Nat.lt_of_lt_of_le h.length_rest_lt (hp.ahead.length_rest_le hc)
      exact Nat.lt_of_le_of_lt (ih h.entry.started hkind) hlt
  | inner h _ ih => exact Nat.lt_of_le_of_lt (ih h.entry.started hkind) h.length_rest_lt
  | argument h _ ih =>
      have hle := (Cursor.Ahead.ahead_scan h.entry.started Cursor.isAlphabetic).length_rest_le
        h.entry.started
      have hlt := Nat.lt_of_lt_of_le h.opens.length_rest_lt hle
      exact Nat.lt_of_le_of_lt (ih h.opens.entry.started hkind) hlt
  | unclosedGroup | unclosedCall | unexpected | malformedNumber | unknownVariable | unknownMethod
  | unknownFunction => cases hkind

/-- A source is cut off only if it has a character for every factor that may
nest. -/
theorem allowance_le_length {source : String} {e : ParseError}
    (h : parse scope limit source = .error e) (hkind : e.fault.kind = .nestingTooDeep) :
    allowance limit 0 ≤ source.length := by
  obtain ⟨c', hread⟩ := parse_eq_error.mp h
  have hentry := entry_advance_ofSource source
  rcases whole_fails scope limit hentry hread with hfails | ⟨rfl, -⟩
  · have hneeded := hfails.needed_le hentry.started hkind
    rwa [show (Cursor.ofSource source).advance.rest = source.toList from rfl, String.length_toList]
      at hneeded
  · cases hkind

end Grammar

open Grammar in
/-- **The limit of depth only cuts off.**  A source that does not nest too deeply
under a limit has the same outcome under every higher one: the same tree, or
the same fault at the same place.  And a limit above the length of the source
is never reached. -/
theorem parse_under_limits (scope : Scope) (source : String) :
    (∀ limit limit' : Int, limit ≤ limit' →
      (∀ e, parse scope limit source = .error e → e.fault.kind ≠ .nestingTooDeep) →
      parse scope limit' source = parse scope limit source) ∧
    ∀ limit : Int, source.length + 1 ≤ limit →
      ∀ e, parse scope limit source = .error e → e.fault.kind ≠ .nestingTooDeep := by
  constructor
  · intro limit limit' hle hdeep
    have hcut : ¬ CutOff (whole scope limit (Cursor.ofSource source).advance) := by
      unfold parse at hdeep
      cases hread : whole scope limit (Cursor.ofSource source).advance with
      | ok tree c => exact id
      | error e c =>
          rw [hread] at hdeep
          exact hdeep e rfl
    unfold parse
    rw [whole_extends scope hle _ hcut]
  · intro limit hlength e hread hkind
    have hle := allowance_le_length hread hkind
    unfold allowance at hle
    omega

/-- Three factors nest in this source, and behind them an operand is missing;
twelve may nest where there are eleven characters. -/
theorem parse_under_limits_group :
    parse .seeded 100 "(2 * -pi) +" = parse .seeded 3 "(2 * -pi) +" ∧
    ∀ e, parse .seeded 12 "(2 * -pi) +" = .error e → e.fault.kind ≠ .nestingTooDeep := by
  have hread : parse .seeded 3 "(2 * -pi) +" = .error ⟨.unexpected none, 11⟩ := by decide +kernel
  refine ⟨(parse_under_limits .seeded _).1 3 100 (by decide) ?_,
    (parse_under_limits .seeded _).2 12 (by decide +kernel)⟩
  intro e he
  obtain rfl : ⟨.unexpected none, 11⟩ = e := Except.error.inj (hread.symm.trans he)
  decide

end Reckon
