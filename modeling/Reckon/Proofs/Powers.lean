import Reckon.Proofs.ExactValues
/-!
# The special values of powers

The calculator computes a power from an elementary one, which refuses an overflow
and some zeros and negative numbers as base (`PowerRules`).  What it makes of that
is a power of its own for every pair of doubles (`power_special_values`): 1 for a
zero exponent, NaN exactly where the power is `Undefined`, an infinity for a zero to
a negative power and for an overflow, and otherwise the elementary power.

Two steps lead there.  Either the elementary power is `Asked`, or the power is
undefined and NaN (`asked_or`); and of an elementary power that is asked, each
outcome has one answer (`Asked.of_value`, `Asked.of_overflow`, `Asked.of_domain_zero`,
`Asked.of_domain`).  The rules then say which outcome it is.

Where an operand is not finite the elementary power does not depend on the machine,
so the rules hold of it when they do between finite doubles
(`FinitePowerRules.extended`, `elementaryPower_rules`), and with them the values are
those of the calculator's own power (`power_values`).
-/

namespace Reckon

open Float.Model

namespace Double

/-! ### Kinds of doubles -/

/-- Less than zero, and perhaps infinite. -/
def isBelowZero : UnpackedFloat → Bool
  | .infinity .negative | .finite .negative .. => true
  | _ => false

section Kinds

variable {x : Float}

/-- Zero is unpacked as a zero. -/
theorem unpack_zero : (0.0 : Float).toModel.unpack = .zero .positive := rfl

/-- A zero has either sign. -/
theorem beq_zero_iff : (x == 0.0) = true ↔ ∃ s, x.toModel.unpack = .zero s := by
  show UnpackedFloat.beq x.toModel.unpack (0.0 : Float).toModel.unpack = true ↔ _
  rw [unpack_zero]
  cases x.toModel.unpack with
  | notANumber => exact iff_of_false Bool.false_ne_true (by rintro ⟨s, ⟨⟩⟩)
  | infinity s | finite s =>
      refine iff_of_false ?_ (by rintro ⟨s, ⟨⟩⟩)
      cases s <;> exact Bool.false_ne_true
  | zero s => exact iff_of_true rfl ⟨s, rfl⟩

/-- Infinite is what is unpacked so. -/
theorem isInf_iff : x.isInf = true ↔ ∃ s, x.toModel.unpack = .infinity s := by
  show x.toModel.unpack.isInf = true ↔ _
  cases x.toModel.unpack with
  | notANumber | zero | finite => exact iff_of_false Bool.false_ne_true (by rintro ⟨s, ⟨⟩⟩)
  | infinity s => exact iff_of_true rfl ⟨s, rfl⟩

/-- Below zero is what is unpacked with its sign, and is no zero. -/
theorem lt_zero_iff : x < 0.0 ↔ isBelowZero x.toModel.unpack = true := by
  rw [lt_iff_unpack, unpack_zero]
  cases x.toModel.unpack with
  | notANumber | zero s => exact Iff.rfl
  | infinity s | finite s => cases s <;> exact Iff.rfl

/-- A zero is finite, not below zero, and not of magnitude one. -/
theorem of_beq_zero (h : (x == 0.0) = true) :
    x.isNaN = false ∧ x.isFinite = true ∧ ¬ x < 0.0 ∧ (x.abs == 1.0) = false := by
  obtain ⟨s, hs⟩ := beq_zero_iff.mp h
  show x.toModel.unpack.isNaN = false ∧ x.toModel.unpack.isFinite = true ∧ _ ∧
    UnpackedFloat.beq x.abs.toModel.unpack (1.0 : Float).toModel.unpack = false
  rw [lt_zero_iff, unpack_abs, hs]
  exact ⟨rfl, rfl, Bool.false_ne_true, rfl⟩

/-- What is below zero is a number, and not zero. -/
theorem of_lt_zero (h : x < 0.0) : x.isNaN = false ∧ (x == 0.0) = false := by
  rw [lt_zero_iff] at h
  rw [← Bool.not_eq_true (x == 0.0), beq_zero_iff]
  show x.toModel.unpack.isNaN = false ∧ _
  cases hu : x.toModel.unpack with
  | notANumber | zero =>
      rw [hu] at h
      cases h
  | infinity | finite => exact ⟨rfl, by rintro ⟨s, ⟨⟩⟩⟩

/-- What is finite is a number, and no infinity. -/
theorem of_isFinite (h : x.isFinite = true) : x.isNaN = false ∧ x.isInf = false := by
  have hu : x.toModel.unpack.isFinite = true := h
  show x.toModel.unpack.isNaN = false ∧ x.toModel.unpack.isInf = false
  cases hx : x.toModel.unpack with
  | notANumber | infinity =>
      rw [hx] at hu
      cases hu
  | zero | finite => exact ⟨rfl, rfl⟩

/-- A number that is not finite is an infinity. -/
theorem isInf_of_not_isFinite (hnumber : x.isNaN = false) (h : ¬ x.isFinite = true) :
    x.isInf = true := by
  have hu : x.toModel.unpack.isNaN = false := hnumber
  replace h : ¬ x.toModel.unpack.isFinite = true := h
  show x.toModel.unpack.isInf = true
  cases hx : x.toModel.unpack with
  | infinity => rfl
  | notANumber =>
      rw [hx] at hu
      cases hu
  | zero | finite =>
      rw [hx] at h
      exact absurd rfl h

/-- An infinity is not NaN, and no number either. -/
theorem of_isInf (h : x.isInf = true) : x.isNaN = false ∧ value? x = none := by
  obtain ⟨s, hs⟩ := isInf_iff.mp h
  show x.toModel.unpack.isNaN = false ∧ _
  rw [value?, parts?, hs]
  exact ⟨rfl, rfl⟩

end Kinds

/-- A double that is an integer. -/
def IsInteger (x : Float) : Prop :=
  ∃ n : Int, value? x = some (n : ℚ)

/-- A double that is an odd integer. -/
def IsOdd (x : Float) : Prop :=
  ∃ k : Int, value? x = some ((2 * k + 1 : Int) : ℚ)

/-- The test for integers finds them. -/
theorem isInteger_iff {x : Float} : IsInteger x ↔ (integer? x).isSome = true := by
  simp only [IsInteger, ← integer?_eq_some_iff, Option.isSome_iff_exists]

/-- Either zero is an integer. -/
theorem isInteger_of_beq_zero {x : Float} (h : (x == 0.0) = true) : IsInteger x := by
  obtain ⟨s, hs⟩ := beq_zero_iff.mp h
  refine ⟨0, ?_⟩
  rw [value?_eq_some_iff, hs, Int.cast_zero]
  exact .zero s

/-- The test for odd integers finds them. -/
theorem isOddInteger_iff {x : Float} : isOddInteger x = true ↔ IsOdd x := by
  simp only [isOddInteger, IsOdd, ← integer?_eq_some_iff]
  cases integer? x with
  | none => simp
  | some n =>
      simp only [beq_iff_eq, Option.some.injEq]
      exact ⟨fun h => ⟨n / 2, by omega⟩, fun ⟨k, hk⟩ => by omega⟩

end Double

open Double

/-! ### The rules of an elementary power -/

/-- What an elementary power keeps to.  A NaN comes out of a NaN only.  It refuses
with an overflow exactly where finite operands overflow; and it refuses a zero with
a negative exponent, unless perhaps that is infinite, and a negative number with
an exponent that is no integer. -/
structure PowerRules (pow : Float → Float → Outcome) (overflows : Float → Float → Prop) :
    Prop where
  exponent_zero {a b : Float} (hb : (b == 0.0) = true) : pow a b = .value 1.0
  isNaN_iff {a b r : Float} (h : pow a b = .value r) : r.isNaN = true ↔
    a.isNaN = true ∧ (b == 0.0) = false ∨ b.isNaN = true ∧ (a == 1.0) = false
  overflow_iff {a b : Float} : pow a b = .overflow ↔
    a.isFinite = true ∧ b.isFinite = true ∧ overflows a b
  zero_base {a b : Float} (ha : (a == 0.0) = true) (hb : b < 0.0) (hfinite : b.isFinite = true) :
    pow a b = .domain
  zero_base_infinite {a b r : Float} (ha : (a == 0.0) = true) (hb : b < 0.0)
    (hinfinite : b.isInf = true) (h : pow a b = .value r) : r = infinity
  negative_base {a b : Float} (ha : a < 0.0) (hfinite : a.isFinite = true)
    (hb : b.isFinite = true) (hfraction : ¬ IsInteger b) : pow a b = .domain
  domain {a b : Float} (h : pow a b = .domain) :
    (a == 0.0) = true ∧ b < 0.0 ∨
      a < 0.0 ∧ a.isFinite = true ∧ b.isFinite = true ∧ ¬ IsInteger b

/-- A power that is undefined. -/
def Undefined (a b : Float) : Prop :=
  a.isNaN = true ∨ b.isNaN = true ∨ ((a.abs == 1.0) = true ∧ b.isInf = true) ∨
    a < 0.0 ∧ a.isFinite = true ∧ b.isFinite = true ∧ ¬ IsInteger b

/-- An infinity, and when it is the negative one. -/
def InfiniteWith (negative : Prop) (x : Float) : Prop :=
  x.isInf = true ∧ (signed x = true ↔ negative)

/-- A choice between the infinities has the sign of its condition. -/
theorem infiniteWith_ite {p : Prop} [Decidable p] :
    InfiniteWith p (if p then -infinity else infinity) := by
  split
  · next h => exact ⟨by decide, iff_of_true (by decide) h⟩
  · next h => exact ⟨by decide, iff_of_false (by decide) h⟩

/-- The condition of the sign may be put in other words. -/
theorem InfiniteWith.congr {p q : Prop} {x : Float} (h : InfiniteWith p x) (hpq : p ↔ q) :
    InfiniteWith q x :=
  ⟨h.1, h.2.trans hpq⟩

/-- An infinity is a number. -/
theorem InfiniteWith.isNaN_eq_false {p : Prop} {x : Float} (h : InfiniteWith p x) :
    x.isNaN = false :=
  (of_isInf h.1).1

/-! ### What is made of them -/

/-- The elementary power is asked. -/
structure Asked (a b : Float) : Prop where
  exponent : (b == 0.0) = false
  number : b.isNaN = false
  unit : ¬ ((a.abs == 1.0) = true ∧ b.isInf = true)

section Rules

variable {pow : Float → Float → Outcome} {overflows : Float → Float → Prop} {a b : Float}

/-- Whatever is raised to zero gives one. -/
theorem powerBy_of_zero (hb : (b == 0.0) = true) : powerBy pow a b = 1.0 :=
  if_pos hb

/-- The elementary power is asked, or the power is undefined. -/
theorem asked_or (pow : Float → Float → Outcome) (a : Float) (hb : (b == 0.0) = false) :
    Asked a b ∨ Undefined a b ∧ powerBy pow a b = notANumber := by
  by_cases hspecial : (b.isNaN || (a.abs == 1.0 && b.isInf)) = true
  · refine .inr ⟨?_, ?_⟩
    · rw [Bool.or_eq_true, Bool.and_eq_true] at hspecial
      exact hspecial.elim (fun hnan => .inr (.inl hnan)) (fun hunit => .inr (.inr (.inl hunit)))
    · unfold powerBy
      rw [hb, if_neg Bool.false_ne_true, if_pos hspecial]
  · rw [Bool.or_eq_true, Bool.and_eq_true, not_or] at hspecial
    exact .inl ⟨hb, Bool.eq_false_iff.mpr hspecial.1, hspecial.2⟩

/-- Where the elementary power is asked its outcome decides. -/
theorem Asked.powerBy_eq (h : Asked a b) (pow : Float → Float → Outcome) :
    powerBy pow a b =
      match pow a b with
      | .value r => r
      | .overflow => if a < 0.0 && isOddInteger b then -infinity else infinity
      | .domain =>
        if a == 0.0 then if isOddInteger b then withSignOf infinity a else infinity
        else notANumber := by
  have hspecial : ¬ (b.isNaN || (a.abs == 1.0 && b.isInf)) = true := by
    rw [Bool.or_eq_true, Bool.and_eq_true, not_or]
    exact ⟨Bool.eq_false_iff.mp h.number, h.unit⟩
  exact (if_neg (Bool.eq_false_iff.mp h.exponent)).trans (if_neg hspecial)

/-- A value that it gives is the power. -/
theorem Asked.of_value (h : Asked a b) {r : Float} (hp : pow a b = .value r) :
    powerBy pow a b = r := by
  rw [h.powerBy_eq, hp]

/-- An overflow becomes an infinity. -/
theorem Asked.of_overflow (h : Asked a b) (hp : pow a b = .overflow) :
    InfiniteWith (a < 0.0 ∧ IsOdd b) (powerBy pow a b) := by
  rw [h.powerBy_eq, hp]
  refine infiniteWith_ite.congr ?_
  rw [Bool.and_eq_true, decide_eq_true_iff, isOddInteger_iff]

/-- A refused zero becomes an infinity, too. -/
theorem Asked.of_domain_zero (h : Asked a b) (hp : pow a b = .domain) (ha : (a == 0.0) = true) :
    InfiniteWith (signed a = true ∧ IsOdd b) (powerBy pow a b) := by
  have hsame : powerBy pow a b =
      if signed a = true ∧ isOddInteger b = true then -infinity else infinity := by
    rw [h.powerBy_eq, hp]
    dsimp only
    rw [if_pos ha]
    unfold withSignOf
    cases signed a <;> cases isOddInteger b <;> rfl
  rw [hsame]
  exact infiniteWith_ite.congr (and_congr Iff.rfl isOddInteger_iff)

/-- Anything else that is refused becomes NaN. -/
theorem Asked.of_domain (h : Asked a b) (hp : pow a b = .domain) (ha : (a == 0.0) = false) :
    powerBy pow a b = notANumber := by
  rw [h.powerBy_eq, hp]
  dsimp only
  rw [ha, if_neg Bool.false_ne_true]

variable (rules : PowerRules pow overflows)
include rules

/-- A negative number is refused with a fraction as exponent. -/
theorem PowerRules.domain_of_undefined (hasked : Asked a b) (ha : a.isNaN = false)
    (h : Undefined a b) : pow a b = .domain ∧ a < 0.0 := by
  rcases h with hnan | hnan | hunit | ⟨hneg, hfinite, hb, hfraction⟩
  · exact absurd (ha.symm.trans hnan) Bool.false_ne_true
  · exact absurd (hasked.number.symm.trans hnan) Bool.false_ne_true
  · exact absurd hunit hasked.unit
  · exact ⟨rules.negative_base hneg hfinite hb hfraction, hneg⟩

/-- **A power is NaN exactly where it is undefined.** -/
theorem PowerRules.isNaN_powerBy (hb : (b == 0.0) = false) :
    (powerBy pow a b).isNaN = true ↔ Undefined a b := by
  rcases asked_or pow a hb with hasked | ⟨hundefined, hnan⟩
  · cases hp : pow a b with
    | value r =>
        rw [hasked.of_value hp, rules.isNaN_iff hp]
        constructor
        · rintro (⟨hnan, -⟩ | ⟨hnan, -⟩)
          · exact .inl hnan
          · exact .inr (.inl hnan)
        · intro hundefined
          by_cases ha : a.isNaN = true
          · exact .inl ⟨ha, hb⟩
          · have hdomain := rules.domain_of_undefined hasked (Bool.eq_false_iff.mpr ha) hundefined
            cases hp.symm.trans hdomain.1
    | overflow =>
        rw [(hasked.of_overflow hp).isNaN_eq_false]
        refine iff_of_false Bool.false_ne_true fun hundefined => ?_
        have ha := of_isFinite (rules.overflow_iff.mp hp).1
        have hdomain := rules.domain_of_undefined hasked ha.1 hundefined
        cases hp.symm.trans hdomain.1
    | domain =>
        by_cases hzero : (a == 0.0) = true
        · obtain ⟨ha, -, hnonneg, -⟩ := of_beq_zero hzero
          rw [(hasked.of_domain_zero hp hzero).isNaN_eq_false]
          refine iff_of_false Bool.false_ne_true fun hundefined => ?_
          exact hnonneg (rules.domain_of_undefined hasked ha hundefined).2
        · rw [hasked.of_domain hp (Bool.eq_false_iff.mpr hzero)]
          refine iff_of_true (by decide) (.inr (.inr (.inr ?_)))
          exact (rules.domain hp).resolve_left fun hbase => hzero hbase.1
  · rw [hnan]
    exact iff_of_true (by decide) hundefined

/-- Zero with an exponent below zero gives an infinity, with the sign of an odd
power. -/
theorem PowerRules.powerBy_zero_base (ha : (a == 0.0) = true) (hb : b < 0.0) :
    InfiniteWith (signed a = true ∧ IsOdd b) (powerBy pow a b) := by
  obtain ⟨hnumber, hexponent⟩ := of_lt_zero hb
  have hunit := (of_beq_zero ha).2.2.2
  have hasked : Asked a b :=
    ⟨hexponent, hnumber, fun h => Bool.false_ne_true (hunit.symm.trans h.1)⟩
  cases hp : pow a b with
  | domain => exact hasked.of_domain_zero hp ha
  | value r =>
      have hinfinite : b.isInf = true := by
        refine isInf_of_not_isFinite hnumber fun hfinite => ?_
        cases hp.symm.trans (rules.zero_base ha hb hfinite)
      rw [hasked.of_value hp, rules.zero_base_infinite ha hb hinfinite hp]
      refine ⟨by decide, iff_of_false (by decide) fun h => ?_⟩
      obtain ⟨k, hk⟩ := h.2
      cases (of_isInf hinfinite).2.symm.trans hk
  | overflow =>
      have hfinite := (rules.overflow_iff.mp hp).2.1
      cases hp.symm.trans (rules.zero_base ha hb hfinite)

/-- What is too great gives an infinity, with the sign of an odd power. -/
theorem PowerRules.powerBy_overflow (ha : a.isFinite = true) (hb : b.isFinite = true)
    (hover : overflows a b) : InfiniteWith (a < 0.0 ∧ IsOdd b) (powerBy pow a b) := by
  have hp : pow a b = .overflow := rules.overflow_iff.mpr ⟨ha, hb, hover⟩
  have hexponent : (b == 0.0) = false := by
    refine Bool.eq_false_iff.mpr fun hzero => ?_
    cases hp.symm.trans (rules.exponent_zero hzero)
  obtain ⟨hnumber, hbounded⟩ := of_isFinite hb
  have hasked : Asked a b :=
    ⟨hexponent, hnumber, fun h => Bool.false_ne_true (hbounded.symm.trans h.2)⟩
  exact hasked.of_overflow hp

/-- In every other case the power is what the elementary one gives. -/
theorem PowerRules.powerBy_value (hb : (b == 0.0) = false) (hdefined : ¬ Undefined a b)
    (hzero : ¬ ((a == 0.0) = true ∧ b < 0.0))
    (hover : ¬ (a.isFinite = true ∧ b.isFinite = true ∧ overflows a b)) :
    pow a b = .value (powerBy pow a b) := by
  rcases asked_or pow a hb with hasked | ⟨hundefined, -⟩
  · cases hp : pow a b with
    | value r => rw [hasked.of_value hp]
    | overflow => exact absurd (rules.overflow_iff.mp hp) hover
    | domain =>
        rcases rules.domain hp with hbase | hnegative
        · exact absurd hbase hzero
        · exact absurd (.inr (.inr (.inr hnegative))) hdefined
  · exact absurd hundefined hdefined

end Rules

/-! ### Operands that are not finite -/

section Extended

variable {a b : Float}

/-- The magnitude of NaN is NaN, and of nothing else. -/
theorem isNaN_abs (x : Float) : x.abs.isNaN = x.isNaN := by
  show x.abs.toModel.unpack.isNaN = x.toModel.unpack.isNaN
  rw [unpack_abs]
  cases x.toModel.unpack <;> rfl

/-- The opposite of NaN is NaN, and of nothing else. -/
theorem isNaN_neg (x : Float) : (-x).isNaN = x.isNaN := by
  show (-x).toModel.unpack.isNaN = x.toModel.unpack.isNaN
  rw [unpack_neg]
  cases x.toModel.unpack <;> rfl

/-- Zero and what is below it are not above it. -/
theorem not_zero_lt (h : (b == 0.0) = true ∨ b < 0.0) : ¬ 0.0 < b := by
  rw [beq_zero_iff, lt_zero_iff] at h
  rw [lt_iff_unpack, unpack_zero]
  rcases h with ⟨s, hs⟩ | hneg
  · rw [hs]
    exact Bool.false_ne_true
  · cases hu : b.toModel.unpack with
    | notANumber | zero => exact Bool.false_ne_true
    | infinity s | finite s =>
        cases s with
        | negative => exact Bool.false_ne_true
        | positive =>
            rw [hu] at hneg
            cases hneg

/-- Of numbers comes no NaN. -/
theorem isNaN_extendedPower_of_numbers (ha : a.isNaN = false) (hb : b.isNaN = false) :
    (extendedPower a b).isNaN = false := by
  have hsign : (withSignOf 0.0 a).isNaN = false := by
    unfold withSignOf
    split <;> decide
  unfold extendedPower
  rw [ha, hb, if_neg Bool.false_ne_true, if_neg Bool.false_ne_true]
  split_ifs
  · exact ha
  · rwa [isNaN_abs]
  · decide
  · exact hsign
  · decide
  · decide
  · exact hb
  · decide
  · rwa [isNaN_neg]
  · decide

/-- Beyond the finite operands the power is NaN where one of them is, but for an
exponent of zero and a base of one. -/
theorem isNaN_extendedPower : (extendedPower a b).isNaN = true ↔
    a.isNaN = true ∧ (b == 0.0) = false ∨ b.isNaN = true ∧ (a == 1.0) = false := by
  by_cases ha : a.isNaN = true
  · unfold extendedPower
    rw [if_pos ha]
    by_cases hzero : (b == 0.0) = true
    · rw [if_pos hzero]
      refine iff_of_false (by decide) ?_
      rintro (⟨-, hexponent⟩ | ⟨hnan, -⟩)
      · cases hzero.symm.trans hexponent
      · cases (of_beq_zero hzero).1.symm.trans hnan
    · rw [if_neg hzero]
      exact iff_of_true ha (.inl ⟨ha, Bool.eq_false_iff.mpr hzero⟩)
  · by_cases hb : b.isNaN = true
    · unfold extendedPower
      rw [if_neg ha, if_pos hb]
      by_cases hone : (a == 1.0) = true
      · rw [if_pos hone]
        refine iff_of_false (by decide) ?_
        rintro (⟨hnan, -⟩ | ⟨-, hbase⟩)
        · exact ha hnan
        · cases hone.symm.trans hbase
      · rw [if_neg hone]
        exact iff_of_true hb (.inr ⟨hb, Bool.eq_false_iff.mpr hone⟩)
    · rw [Bool.not_eq_true] at ha hb
      rw [isNaN_extendedPower_of_numbers ha hb, ha, hb]
      refine iff_of_false Bool.false_ne_true ?_
      rintro (⟨⟨⟩, -⟩ | ⟨⟨⟩, -⟩)

/-- Also beyond the finite operands an exponent of zero gives one. -/
theorem extendedPower_of_zero (h : ¬ (a.isFinite = true ∧ b.isFinite = true))
    (hb : (b == 0.0) = true) : extendedPower a b = 1.0 := by
  obtain ⟨hnumber, hfinite, -, -⟩ := of_beq_zero hb
  unfold extendedPower
  by_cases ha : a.isNaN = true
  · rw [if_pos ha, if_pos hb]
  · have hinfinite := isInf_of_not_isFinite (Bool.eq_false_iff.mpr ha) fun ha => h ⟨ha, hfinite⟩
    rw [if_neg ha, hnumber, if_neg Bool.false_ne_true, if_pos hinfinite,
      if_neg (not_zero_lt (.inl hb)), if_pos hb]

/-- Zero to the power of minus infinity is infinity. -/
theorem extendedPower_zero_base (ha : (a == 0.0) = true) (hb : b < 0.0)
    (hinfinite : b.isInf = true) :
    extendedPower a b = infinity := by
  obtain ⟨hnumber, hfinite, -, hunit⟩ := of_beq_zero ha
  obtain ⟨hnumber', -⟩ := of_lt_zero hb
  have hsmall : a.abs < 1.0 := by
    obtain ⟨s, hs⟩ := beq_zero_iff.mp ha
    rw [lt_iff_unpack, unpack_abs, hs]
    rfl
  have hneg : -b = infinity := by
    obtain ⟨s, hs⟩ := isInf_iff.mp hinfinite
    rw [lt_zero_iff, hs] at hb
    refine unpack_inj.mp ((unpack_neg b).trans ?_)
    rw [hs]
    cases s with
    | negative => rfl
    | positive => cases hb
  unfold extendedPower
  rw [hnumber, if_neg Bool.false_ne_true, hnumber', if_neg Bool.false_ne_true,
    (of_isFinite hfinite).2, if_neg Bool.false_ne_true, hunit, if_neg Bool.false_ne_true,
    if_neg (not_zero_lt (.inr hb)), if_pos hsmall, hneg]

end Extended

/-- The rules for finite operands. -/
structure FinitePowerRules (pow : Float → Float → Outcome) (overflows : Float → Float → Prop) :
    Prop where
  exponent_zero {a b : Float} (ha : a.isFinite = true) (hb : (b == 0.0) = true) :
    pow a b = .value 1.0
  number {a b r : Float} (ha : a.isFinite = true) (hb : b.isFinite = true)
    (h : pow a b = .value r) : r.isNaN = false
  overflow_iff {a b : Float} (ha : a.isFinite = true) (hb : b.isFinite = true) :
    pow a b = .overflow ↔ overflows a b
  domain_iff {a b : Float} (ha : a.isFinite = true) (hb : b.isFinite = true) :
    pow a b = .domain ↔ (a == 0.0) = true ∧ b < 0.0 ∨ a < 0.0 ∧ ¬ IsInteger b

/-- An elementary power is given by what it is for finite operands. -/
def extended (pow : Float → Float → Outcome) (a b : Float) : Outcome :=
  if a.isFinite && b.isFinite then pow a b else .value (extendedPower a b)

/-- The rules for finite operands are all that an extended power needs. -/
theorem FinitePowerRules.extended {pow : Float → Float → Outcome}
    {overflows : Float → Float → Prop} (h : FinitePowerRules pow overflows) :
    PowerRules (extended pow) overflows := by
  have hfinite {a b : Float} (ha : a.isFinite = true) (hb : b.isFinite = true) :
      Reckon.extended pow a b = pow a b := by
    rw [Reckon.extended, ha, hb]
    rfl
  have hrest {a b : Float} (hab : ¬ (a.isFinite = true ∧ b.isFinite = true)) :
      Reckon.extended pow a b = .value (extendedPower a b) := by
    rw [Reckon.extended, if_neg (by rwa [Bool.and_eq_true])]
  constructor
  case exponent_zero =>
    intro a b hzero
    by_cases hab : a.isFinite = true ∧ b.isFinite = true
    · rw [hfinite hab.1 hab.2]
      exact h.exponent_zero hab.1 hzero
    · rw [hrest hab, extendedPower_of_zero hab hzero]
  case isNaN_iff =>
    intro a b r hvalue
    by_cases hab : a.isFinite = true ∧ b.isFinite = true
    · rw [hfinite hab.1 hab.2] at hvalue
      rw [h.number hab.1 hab.2 hvalue, (of_isFinite hab.1).1, (of_isFinite hab.2).1]
      refine iff_of_false Bool.false_ne_true ?_
      rintro (⟨⟨⟩, -⟩ | ⟨⟨⟩, -⟩)
    · rw [hrest hab] at hvalue
      cases hvalue
      exact isNaN_extendedPower
  case overflow_iff =>
    intro a b
    by_cases hab : a.isFinite = true ∧ b.isFinite = true
    · rw [hfinite hab.1 hab.2, h.overflow_iff hab.1 hab.2]
      exact ⟨fun hover => ⟨hab.1, hab.2, hover⟩, fun hover => hover.2.2⟩
    · rw [hrest hab]
      exact iff_of_false Outcome.noConfusion fun hover => hab ⟨hover.1, hover.2.1⟩
  case zero_base =>
    intro a b ha hb hbounded
    have hbase := (of_beq_zero ha).2.1
    rw [hfinite hbase hbounded]
    exact (h.domain_iff hbase hbounded).mpr (.inl ⟨ha, hb⟩)
  case zero_base_infinite =>
    intro a b r ha hb hinfinite hvalue
    have hab : ¬ (a.isFinite = true ∧ b.isFinite = true) := fun hab =>
      Bool.false_ne_true ((of_isFinite hab.2).2.symm.trans hinfinite)
    rw [hrest hab] at hvalue
    cases hvalue
    exact extendedPower_zero_base ha hb hinfinite
  case negative_base =>
    intro a b ha hbase hb hfraction
    rw [hfinite hbase hb]
    exact (h.domain_iff hbase hb).mpr (.inr ⟨ha, hfraction⟩)
  case domain =>
    intro a b hdomain
    by_cases hab : a.isFinite = true ∧ b.isFinite = true
    · rw [hfinite hab.1 hab.2, h.domain_iff hab.1 hab.2] at hdomain
      exact hdomain.imp id fun hneg => ⟨hneg.1, hab.1, hab.2, hneg.2⟩
    · rw [hrest hab] at hdomain
      cases hdomain

/-- The elementary power of the machine between finite doubles. -/
def machinePower (a b : Float) : Outcome :=
  if (a.pow b).isNaN then .domain
  else if (a.pow b).isInf then (if a == 0.0 then .domain else .overflow)
  else .value (a.pow b)

/-- What is relied on of the machine's power between finite doubles: it is 1 for a
zero exponent, NaN exactly for a negative number to a fraction, and of a zero infinite
exactly for a negative exponent. -/
structure MachinePower : Prop where
  one {a b : Float} (ha : a.isFinite = true) (hb : (b == 0.0) = true) : a.pow b = 1.0
  isNaN_iff {a b : Float} (ha : a.isFinite = true) (hb : b.isFinite = true) :
    (a.pow b).isNaN = true ↔ a < 0.0 ∧ ¬ IsInteger b
  isInf_iff {a b : Float} (ha : (a == 0.0) = true) (hb : b.isFinite = true) :
    (a.pow b).isInf = true ↔ b < 0.0

/-- The elementary power keeps to the rules, as far as the machine does. -/
theorem elementaryPower_rules (h : MachinePower) :
    PowerRules elementaryPower fun a b => (a == 0.0) = false ∧ (a.pow b).isInf = true := by
  have hfinite : FinitePowerRules machinePower
      fun a b => (a == 0.0) = false ∧ (a.pow b).isInf = true := by
    constructor
    case exponent_zero =>
      intro a b ha hb
      unfold machinePower
      rw [h.one ha hb]
      rfl
    case number =>
      intro a b r ha hb hvalue
      unfold machinePower at hvalue
      split_ifs at hvalue with hnumber hinfinite
      cases hvalue
      exact Bool.eq_false_iff.mpr hnumber
    case overflow_iff =>
      intro a b ha hb
      unfold machinePower
      split_ifs with hnumber hinfinite hzero
      · exact iff_of_false id fun hover =>
          Bool.false_ne_true ((of_isInf hover.2).1.symm.trans hnumber)
      · exact iff_of_false id fun hover =>
          Bool.false_ne_true (hover.1.symm.trans hzero)
      · exact iff_of_true rfl ⟨Bool.eq_false_iff.mpr hzero, hinfinite⟩
      · exact iff_of_false id fun hover => hinfinite hover.2
    case domain_iff =>
      intro a b ha hb
      rw [← h.isNaN_iff ha hb]
      unfold machinePower
      split_ifs with hnumber hinfinite hzero
      · exact iff_of_true rfl (.inr hnumber)
      · exact iff_of_true rfl (.inl ⟨hzero, (h.isInf_iff hzero hb).mp hinfinite⟩)
      · refine iff_of_false id ?_
        exact not_or.mpr ⟨fun hbase => hzero hbase.1, hnumber⟩
      · refine iff_of_false id ?_
        exact not_or.mpr ⟨fun hbase => hinfinite ((h.isInf_iff hbase.1 hb).mpr hbase.2), hnumber⟩
  exact hfinite.extended

/-- So the power of two doubles is 1 for a zero exponent, NaN where it is undefined, an
infinity for a zero to a negative power and where the machine overflows, and otherwise
the elementary power. -/
theorem power_values (h : MachinePower) (a b : Float) :
    ((b == 0.0) = true → power a b = 1.0) ∧
    ((b == 0.0) = false → ((power a b).isNaN = true ↔ Undefined a b)) ∧
    ((a == 0.0) = true → b < 0.0 → InfiniteWith (signed a = true ∧ IsOdd b) (power a b)) ∧
    (a.isFinite = true → b.isFinite = true → (a == 0.0) = false → (a.pow b).isInf = true →
      InfiniteWith (a < 0.0 ∧ IsOdd b) (power a b)) ∧
    ((b == 0.0) = false → ¬ Undefined a b → ¬ ((a == 0.0) = true ∧ b < 0.0) →
      ¬ (a.isFinite = true ∧ b.isFinite = true ∧ (a == 0.0) = false ∧ (a.pow b).isInf = true) →
      elementaryPower a b = .value (power a b)) := by
  have rules := elementaryPower_rules h
  exact ⟨powerBy_of_zero, rules.isNaN_powerBy, rules.powerBy_zero_base,
    fun ha hb hbase hinf => rules.powerBy_overflow ha hb ⟨hbase, hinf⟩, rules.powerBy_value⟩

/-- The power that repeated multiplication makes of a finite double. -/
def product (a : Float) : Nat → Float
  | 0 => 1.0
  | n + 1 => product a n * a

/-- The power of two doubles, multiplied out when the exponent is a natural number. -/
def multiplied (a b : Float) : Float :=
  match integer? b with
  | some (.ofNat n) => product a n
  | _ => a.pow b

/-- An elementary power that multiplies. -/
def multipliedPower (a b : Float) : Outcome :=
  if b == 0.0 then .value 1.0
  else if a == 0.0 ∧ b < 0.0 ∨ a < 0.0 ∧ (integer? b).isSome = false then .domain
  else if (multiplied a b).isFinite then .value (multiplied a b)
  else .overflow

/-- Repeated multiplication keeps the rules for finite operands. -/
theorem multipliedPower_rules :
    FinitePowerRules multipliedPower fun a b => multipliedPower a b = .overflow := by
  constructor
  case exponent_zero =>
    intro a b ha hb
    exact if_pos hb
  case number =>
    intro a b r ha hb hvalue
    unfold multipliedPower at hvalue
    split_ifs at hvalue with hzero hdomain hfinite
    · cases hvalue
      decide
    · cases hvalue
      exact (of_isFinite hfinite).1
  case overflow_iff =>
    intro a b ha hb
    exact Iff.rfl
  case domain_iff =>
    intro a b ha hb
    rw [isInteger_iff, Bool.not_eq_true]
    unfold multipliedPower
    split_ifs with hzero hdomain hfinite
    · refine iff_of_false id ?_
      have hinteger := isInteger_iff.mp (isInteger_of_beq_zero hzero)
      rintro (⟨-, hneg⟩ | ⟨-, hfraction⟩)
      · exact (of_beq_zero hzero).2.2.1 hneg
      · cases hinteger.symm.trans hfraction
    · exact iff_of_true rfl hdomain
    · exact iff_of_false id hdomain
    · exact iff_of_false id hdomain

/-- **The special values of powers.** A power is 1 for a zero exponent, whatever the
base.  For any other it is NaN exactly where it is undefined; a zero to a negative
power is an infinity, negative for an odd power of the negative zero; so is an
overflow, negative for an odd power of a negative number; and the rest is the
elementary power. -/
theorem power_special_values {pow : Float → Float → Outcome} {overflows : Float → Float → Prop}
    (rules : PowerRules pow overflows) (a b : Float) :
    ((b == 0.0) = true → powerBy pow a b = 1.0) ∧
    ((b == 0.0) = false → ((powerBy pow a b).isNaN = true ↔ Undefined a b)) ∧
    ((a == 0.0) = true → b < 0.0 →
      InfiniteWith (signed a = true ∧ IsOdd b) (powerBy pow a b)) ∧
    (a.isFinite = true → b.isFinite = true → overflows a b →
      InfiniteWith (a < 0.0 ∧ IsOdd b) (powerBy pow a b)) ∧
    ((b == 0.0) = false → ¬ Undefined a b → ¬ ((a == 0.0) = true ∧ b < 0.0) →
      ¬ (a.isFinite = true ∧ b.isFinite = true ∧ overflows a b) →
      pow a b = .value (powerBy pow a b)) :=
  ⟨powerBy_of_zero, rules.isNaN_powerBy, rules.powerBy_zero_base, rules.powerBy_overflow,
    rules.powerBy_value⟩

/-- The power that repeated multiplication makes comes to each special value. -/
theorem power_special_values_occur :
    powerBy (extended multipliedPower) notANumber (-0.0) = 1.0 ∧
      (powerBy (extended multipliedPower) (-2.0) 0.5).isNaN = true ∧
      InfiniteWith True (powerBy (extended multipliedPower) (-0.0) (-3.0)) ∧
      InfiniteWith True (powerBy (extended multipliedPower) (-1e200) 3.0) ∧
      extended multipliedPower (-2.0) 3.0 =
        .value (powerBy (extended multipliedPower) (-2.0) 3.0) := by
  have rules := multipliedPower_rules.extended
  have hodd : IsOdd 3.0 := isOddInteger_iff.mp (by decide +kernel)
  have hodd' : IsOdd (-3.0) := isOddInteger_iff.mp (by decide +kernel)
  have hinteger : IsInteger 3.0 := isInteger_iff.mpr (by decide +kernel)
  have hfraction : ¬ IsInteger 0.5 := by
    rw [isInteger_iff]
    decide +kernel
  have hundefined : Undefined (-2.0) 0.5 :=
    .inr (.inr (.inr ⟨by decide +kernel, by decide +kernel, by decide +kernel, hfraction⟩))
  refine ⟨?_, ?_, ?_, ?_, ?_⟩
  · exact (power_special_values rules notANumber (-0.0)).1 (by decide +kernel)
  · exact ((power_special_values rules (-2.0) 0.5).2.1 (by decide +kernel)).mpr hundefined
  · exact ((power_special_values rules (-0.0) (-3.0)).2.2.1 (by decide +kernel)
      (by decide +kernel)).congr (iff_of_true ⟨by decide +kernel, hodd'⟩ trivial)
  · exact ((power_special_values rules (-1e200) 3.0).2.2.2.1 (by decide +kernel)
      (by decide +kernel) (by decide +kernel)).congr (iff_of_true ⟨by decide +kernel, hodd⟩ trivial)
  · refine (power_special_values rules (-2.0) 3.0).2.2.2.2 (by decide +kernel) ?_
      (by decide +kernel) (by decide +kernel)
    rintro (hnan | hnan | hunit | hnegative)
    · revert hnan
      decide +kernel
    · revert hnan
      decide +kernel
    · revert hunit
      decide +kernel
    · exact hnegative.2.2.2 hinteger

end Reckon
