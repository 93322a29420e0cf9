import Reckon.Proofs.ExactValues
/-!
# Rounding halves upwards is exact

To round a double halves upwards its floor is subtracted, and the difference is
compared with a half.  The difference may be rounded: close below an integer it
becomes one.  What counts is that it never crosses a half
(`half_le_sub_floor_iff`).  A fraction below a half has no more bits than the
double it is taken from, so the difference is exact (`exists_canonical_fract`); one
of a half or more lies in the rounding interval of a double of a half or more
(`exists_holds_of_half_le`).  Floor and answer are doubles, for a double with a
fraction is below `2^53`.
-/

namespace Reckon.Double

open Float.Model

/-! ### Differences -/

section Difference

variable {m : Nat} {e : Int}

/-- Signed canonical parts are not rounded. -/
theorem normalize_apply (h : Canonical m e) (s z : UnpackedFloat.Sign) :
    UnpackedFloat.normalize .binary64 (s.apply m) e z = .finite s m e h.pos := by
  have hpos := h.pos
  cases s with
  | negative =>
      have hcompare : compare (-(m : Int)) 0 = .lt := compare_lt_iff_lt.mpr (by omega)
      simp only [UnpackedFloat.Sign.apply, UnpackedFloat.normalize, hcompare, neg_neg,
        Int.toNat_natCast]
      exact round_of_holds .negative h hpos h.holds
  | positive =>
      have hcompare : compare (m : Int) 0 = .gt := compare_gt_iff_gt.mpr (by omega)
      simp only [UnpackedFloat.Sign.apply, UnpackedFloat.normalize, hcompare, Int.toNat_natCast]
      exact round_of_holds .positive h hpos h.holds

/-- The opposite sign gives the opposite number. -/
theorem apply_neg (s : UnpackedFloat.Sign) (n : Int) : (-s).apply n = -(s.apply n) := by
  cases s with
  | negative => exact (neg_neg n).symm
  | positive => rfl

/-- Two mantissas are taken to the lesser exponent. -/
theorem shiftLeft_mul_zpow (s : UnpackedFloat.Sign) (m : Nat) {e E : Int} (h : E ≤ e) :
    ((s.apply (m <<< (e - E).toNat : Nat) : Int) * 2 ^ E : ℚ) = s.apply m * 2 ^ e := by
  have hpow : (2 : ℚ) ^ e = 2 ^ (e - E).toNat * 2 ^ E := by
    rw [← zpow_natCast, ← zpow_add₀ two_ne_zero]
    congr 1
    omega
  rw [hpow, Nat.shiftLeft_eq]
  cases s <;> simp only [UnpackedFloat.Sign.apply] <;> push_cast <;> ring

/-- A difference of finite doubles is that of their mantissas at the lesser
exponent, rounded. -/
theorem sub_finite {s₁ s₂ : UnpackedFloat.Sign} {m₁ m₂ : Nat} {e₁ e₂ : Int} (h₁ : 0 < m₁)
    (h₂ : 0 < m₂) :
    UnpackedFloat.sub .binary64 (.finite s₁ m₁ e₁ h₁) (.finite s₂ m₂ e₂ h₂) =
      UnpackedFloat.normalize .binary64
        (s₁.apply (m₁ <<< (e₁ - min e₁ e₂).toNat : Nat) -
          s₂.apply (m₂ <<< (e₂ - min e₁ e₂).toNat : Nat)) (min e₁ e₂) .positive :=
  rfl

section Doubles

variable {x y : Float} {a b : ℚ}

/-- A difference is the double of which the rounding interval has it. -/
theorem unpack_sub (hx : value? x = some a) (hy : value? y = some b) (h : Canonical m e)
    (hv : (Interval.of m e).Holds (a - b)) :
    (x - y).toModel.unpack = .finite .positive m e h.pos := by
  rw [value?_eq_some_iff] at hx hy
  have hdifference : UnpackedFloat.sub .binary64 x.toModel.unpack y.toModel.unpack =
      .finite .positive m e h.pos := by
    generalize hu : x.toModel.unpack = u at hx
    generalize hw : y.toModel.unpack = w at hy
    cases hx with
    | zero s₁ =>
        cases hy with
        | zero s₂ =>
            have hzero := normalize_of_holds (M := 0) (E := 0) .positive h (by simpa using hv)
            cases hzero
        | finite s₂ h₂ =>
            have hcanonical := canonical_of_unpack hw
            show UnpackedFloat.finite (-s₂) _ _ _ = _
            rw [← normalize_apply hcanonical (-s₂) .positive]
            refine normalize_of_holds .positive h ?_
            rwa [apply_neg, Int.cast_neg, neg_mul, ← zero_sub]
    | finite s₁ h₁ =>
        cases hy with
        | zero s₂ =>
            have hcanonical := canonical_of_unpack hu
            show UnpackedFloat.finite s₁ _ _ _ = _
            rw [← normalize_apply hcanonical s₁ .positive]
            refine normalize_of_holds .positive h ?_
            rwa [sub_zero] at hv
        | finite s₂ h₂ =>
            rw [sub_finite]
            refine normalize_of_holds .positive h ?_
            rw [Int.cast_sub, sub_mul, shiftLeft_mul_zpow s₁ _ (min_le_left _ _),
              shiftLeft_mul_zpow s₂ _ (min_le_right _ _)]
            exact hv
  show UnpackedFloat.unpack .binary64 (UnpackedFloat.pack .binary64
    (UnpackedFloat.sub .binary64 x.toModel.unpack y.toModel.unpack)) = _
  rw [hdifference]
  exact unpack_pack .positive h

/-- What is not zero is a double with a mantissa. -/
theorem Denotes.ne_zero {s : UnpackedFloat.Sign} {hm : 0 < m} {v : ℚ}
    (h : Denotes (.finite s m e hm) v) : v ≠ 0 := by
  cases h with
  | finite =>
      have hm' : (m : ℚ) ≠ 0 := by exact_mod_cast Nat.ne_of_gt hm
      have hpow : (2 : ℚ) ^ e ≠ 0 := zpow_ne_zero _ two_ne_zero
      cases s <;> simp [UnpackedFloat.Sign.apply, hm', hpow]

/-- Equal doubles have no difference. -/
theorem unpack_sub_of_eq (hx : value? x = some a) (hy : value? y = some a) :
    ∃ s, (x - y).toModel.unpack = .zero s := by
  rw [value?_eq_some_iff] at hx hy
  have hdifference : ∃ s, UnpackedFloat.sub .binary64 x.toModel.unpack y.toModel.unpack =
      .zero s := by
    generalize x.toModel.unpack = u at hx
    generalize y.toModel.unpack = w at hy
    cases hx with
    | zero s₁ =>
        cases w with
        | notANumber | infinity => cases hy
        | zero s₂ => cases s₁ <;> cases s₂ <;> exact ⟨_, rfl⟩
        | finite => exact absurd rfl hy.ne_zero
    | @finite s₁ m₁ e₁ h₁ =>
        generalize hvalue : (s₁.apply m₁ * 2 ^ e₁ : ℚ) = v at hy
        cases hy with
        | zero => exact absurd hvalue (Denotes.finite s₁ h₁).ne_zero
        | @finite s₂ m₂ e₂ h₂ =>
            refine ⟨.positive, ?_⟩
            have hnone : s₁.apply (m₁ <<< (e₁ - min e₁ e₂).toNat : Nat) -
                s₂.apply (m₂ <<< (e₂ - min e₁ e₂).toNat : Nat) = 0 := by
              have hpow : (2 : ℚ) ^ min e₁ e₂ ≠ 0 := zpow_ne_zero _ two_ne_zero
              have hscaled := shiftLeft_mul_zpow s₁ m₁ (min_le_left e₁ e₂)
              rw [hvalue, ← shiftLeft_mul_zpow s₂ m₂ (min_le_right e₁ e₂)] at hscaled
              have hsame := mul_right_cancel₀ hpow hscaled
              rw [sub_eq_zero]
              exact_mod_cast hsame
            rw [sub_finite, hnone]
            rfl
  obtain ⟨s, hs⟩ := hdifference
  refine ⟨s, ?_⟩
  show UnpackedFloat.unpack .binary64 (UnpackedFloat.pack .binary64
    (UnpackedFloat.sub .binary64 x.toModel.unpack y.toModel.unpack)) = _
  rw [hs]
  cases s <;> rfl

end Doubles

end Difference

/-! ### A half -/

/-- A half is unpacked with a full mantissa. -/
theorem unpack_half : (0.5 : Float).toModel.unpack =
    .finite .positive (2 ^ 52) (-53) (by decide) := by
  rfl

/-- Whether a positive double is at least a half shows in its exponent. -/
theorem half_le_iff {x : Float} {m : Nat} {e : Int} {hm : 0 < m}
    (hx : x.toModel.unpack = .finite .positive m e hm) : 0.5 ≤ x ↔ -53 ≤ e := by
  have hlong := (canonical_of_unpack hx).long
  rw [le_iff_unpack, hx, unpack_half]
  show ((compare (-53) e).then (compare (2 ^ 52) m)).isLE = true ↔ _
  rcases Int.lt_trichotomy (-53) e with hlt | rfl | hgt
  · rw [compare_lt_iff_lt.mpr hlt]
    exact iff_of_true rfl hlt.le
  · rw [compare_eq_iff_eq.mpr rfl]
    refine iff_of_true ?_ le_rfl
    exact Nat.isLE_compare.mpr (by omega)
  · rw [compare_gt_iff_gt.mpr hgt]
    exact iff_of_false Bool.false_ne_true (by omega)

/-- Neither zero reaches a half. -/
theorem not_half_le_zero {x : Float} {s : UnpackedFloat.Sign} (hx : x.toModel.unpack = .zero s) :
    ¬ 0.5 ≤ x := by
  rw [le_iff_unpack, hx, unpack_half]
  exact Bool.false_ne_true

/-! ### The fraction -/

section Fraction

/-- A number is in the interval of the mantissa to which it is rounded. -/
theorem holds_roundDiv {num den r : Nat} (hden : 0 < den) (e : Int) (hr : roundDiv num den = r)
    (hpos : 0 < r) (hlong : 2 ^ 52 * den ≤ num) :
    (Interval.of r e).Holds (num / den * 2 ^ e) := by
  have hden' : (0 : ℚ) < den := by exact_mod_cast hden
  have hspec := roundDiv_spec num hden
  rw [hr] at hspec
  rw [Interval.holds_of_iff, ← mul_div_assoc]
  by_cases hedge : r = 2 ^ 52 ∧ e ≠ -1074
  · obtain ⟨rfl, he⟩ := hedge
    have hclosed : (Interval.of (2 ^ 52) e).closed = true := rfl
    rw [if_pos hclosed, Interval.low_edge rfl he, le_div_iff₀ hden', div_le_iff₀ hden']
    have hlow : (2 ^ 52 * den : ℚ) ≤ num := by exact_mod_cast hlong
    have hhigh : (2 * num : ℚ) ≤ 2 * (2 ^ 52 * den) + den := by
      have hnat : 2 * num ≤ 2 * (2 ^ 52 * den) + den := by omega
      exact_mod_cast hnat
    push_cast
    constructor <;> linarith
  · rw [Interval.low_inner hpos hedge]
    split
    · have hlow : (2 * (r * den) : ℚ) ≤ 2 * num + den := by
        have hnat : 2 * (r * den) ≤ 2 * num + den := by omega
        exact_mod_cast hnat
      have hhigh : (2 * num : ℚ) ≤ 2 * (r * den) + den := by
        have hnat : 2 * num ≤ 2 * (r * den) + den := by omega
        exact_mod_cast hnat
      rw [le_div_iff₀ hden', div_le_iff₀ hden']
      constructor <;> linarith
    · next hopen =>
        have hodd : ¬ r % 2 = 0 := fun heven => hopen (decide_eq_true heven)
        have hlow : (2 * (r * den) : ℚ) < 2 * num + den := by
          have hnat : 2 * (r * den) < 2 * num + den := by omega
          exact_mod_cast hnat
        have hhigh : (2 * num : ℚ) < 2 * (r * den) + den := by
          have hnat : 2 * num < 2 * (r * den) + den := by omega
          exact_mod_cast hnat
        rw [lt_div_iff₀ hden', div_lt_iff₀ hden']
        constructor <;> linarith

/-- Every number with 53 bits in front of a place is in the interval of a double
that is no further down. -/
theorem exists_holds {num den : Nat} {E : Int} (hden : 0 < den) (hlow : -1074 ≤ E)
    (hhigh : E < 971) (hlong : 2 ^ 52 * den ≤ num) (hshort : num < 2 ^ 53 * den) :
    ∃ m e, Canonical m e ∧ E ≤ e ∧ (Interval.of m e).Holds (num / den * 2 ^ E) := by
  have hspec := roundDiv_spec num hden
  obtain ⟨r, hr⟩ : ∃ r, roundDiv num den = r := ⟨_, rfl⟩
  rw [hr] at hspec
  have hle : r ≤ 2 ^ 53 := by
    by_contra hgt
    have hfar : (2 ^ 53 + 1) * den ≤ r * den := Nat.mul_le_mul_right _ (by omega)
    rw [Nat.succ_mul (2 ^ 53) den] at hfar
    omega
  have hge : 2 ^ 52 ≤ r := by
    by_contra hlt
    have hfar : (r + 1) * den ≤ 2 ^ 52 * den := Nat.mul_le_mul_right _ (by omega)
    rw [Nat.succ_mul r den] at hfar
    omega
  rcases Nat.lt_or_eq_of_le hle with hlt | rfl
  · exact ⟨r, E, ⟨by omega, hlt, by omega, by omega⟩, le_rfl,
      holds_roundDiv hden E hr (by omega) hlong⟩
  · -- rounded up to the next power of two
    have hden' : (0 : ℚ) < den := by exact_mod_cast hden
    have hclosed : (Interval.of (2 ^ 52) (E + 1)).closed = true := rfl
    refine ⟨2 ^ 52, E + 1, ⟨by omega, by omega, by omega, by omega⟩, by omega, ?_⟩
    rw [mul_zpow_succ, Interval.holds_of_iff, if_pos hclosed, Interval.low_edge rfl (by omega)]
    have hbelow : (2 ^ 53 - 1 / 2 : ℚ) ≤ num / den := by
      rw [le_div_iff₀ hden']
      have hcast : (2 * (2 ^ 53 * den) : ℚ) ≤ 2 * num + den := by
        have hnat : 2 * (2 ^ 53 * den) ≤ 2 * num + den := by omega
        exact_mod_cast hnat
      linarith
    have habove : (num / den : ℚ) < 2 ^ 53 := by
      rw [div_lt_iff₀ hden']
      exact_mod_cast hshort
    push_cast
    constructor <;> linarith

/-- A fraction of a half or more is in the interval of a double of a half or more. -/
theorem exists_holds_of_half_le {r : ℚ} (hlow : 1 / 2 ≤ r) (hlt : r < 1) :
    ∃ m e, Canonical m e ∧ -53 ≤ e ∧ (Interval.of m e).Holds r := by
  obtain ⟨num, hnum⟩ : ∃ num : Nat, (num : ℚ) = r.num := by
    refine ⟨r.num.toNat, ?_⟩
    exact_mod_cast Int.toNat_of_nonneg (Rat.num_nonneg.mpr (by linarith))
  have hden : (0 : ℚ) < r.den := by exact_mod_cast r.den_pos
  have hr : r = num / r.den := by rw [hnum, Rat.num_div_den]
  have hhalf : r.den ≤ 2 * num := by
    rw [hr, le_div_iff₀ hden] at hlow
    have hcast : (r.den : ℚ) ≤ 2 * num := by linarith
    exact_mod_cast hcast
  have hone : num < r.den := by
    rw [hr, div_lt_iff₀ hden, one_mul] at hlt
    exact_mod_cast hlt
  obtain ⟨m, e, hcanonical, he, hv⟩ : ∃ m e, Canonical m e ∧ -53 ≤ e ∧
      (Interval.of m e).Holds ((num * 2 ^ 53 : Nat) / r.den * 2 ^ (-53 : Int)) :=
    exists_holds r.den_pos (by decide) (by decide) (by omega) (by omega)
  have hvalue : ((num * 2 ^ 53 : Nat) / r.den * 2 ^ (-53 : Int) : ℚ) = r := by
    rw [zpow_neg, Nat.cast_mul, mul_div_right_comm, ← hr]
    push_cast
    field_simp
  exact ⟨m, e, hcanonical, he, hvalue ▸ hv⟩

/-- The remainder of a mantissa is the numerator of its fraction. -/
theorem fract_mul_zpow (a : Int) (k : Nat) :
    Int.fract (a * 2 ^ (-k : Int) : ℚ) = (a % (2 ^ k : Nat) : Int) * 2 ^ (-k : Int) := by
  have hmod := Int.fract_div_intCast_eq_div_intCast_mod (k := ℚ) (m := a) (n := 2 ^ k)
  rw [zpow_neg, zpow_natCast, ← div_eq_mul_inv, ← div_eq_mul_inv]
  push_cast at hmod ⊢
  exact hmod

/-- A remainder below a half has as few bits as the mantissa.  A negative mantissa
that is far behind the point leaves more than a half. -/
theorem remainder_lt {a : Int} (ha : a.natAbs < 2 ^ 53) {k : Nat}
    (hlt : 2 * (a % (2 ^ k : Nat)) < (2 ^ k : Nat)) : a % (2 ^ k : Nat) < 2 ^ 53 := by
  rcases Nat.lt_or_ge 54 k with hfar | hnear
  · have hbig : 2 ^ 55 ≤ 2 ^ k := Nat.pow_le_pow_right (by decide) hfar
    generalize 2 ^ k = B at *
    rcases lt_or_ge a 0 with hneg | hnonneg
    · have hmod : a % B = a + B := by
        rw [← Int.add_emod_right, Int.emod_eq_of_lt (by omega) (by omega)]
      omega
    · have hmod : a % B = a := Int.emod_eq_of_lt hnonneg (by omega)
      omega
  · have hsmall : 2 ^ k ≤ 2 ^ 54 := Nat.pow_le_pow_right (by decide) hnear
    generalize 2 ^ k = B at *
    omega

/-- A fraction below a half that a double has is a double. -/
theorem exists_canonical_fract {a e : Int} (ha : a.natAbs < 2 ^ 53) (he : -1074 ≤ e)
    (hpos : 0 < Int.fract (a * 2 ^ e : ℚ)) (hlt : Int.fract (a * 2 ^ e : ℚ) < 1 / 2) :
    ∃ m k, Canonical m k ∧ k < -53 ∧ (m * 2 ^ k : ℚ) = Int.fract (a * 2 ^ e : ℚ) := by
  have hneg : e < 0 := by
    by_contra hnonneg
    obtain ⟨k, rfl⟩ : ∃ k : Nat, e = k := ⟨e.toNat, by omega⟩
    rw [mul_zpow_natCast, Int.fract_intCast] at hpos
    exact lt_irrefl _ hpos
  obtain ⟨k, rfl⟩ : ∃ k : Nat, e = -k := ⟨(-e).toNat, by omega⟩
  have hunit : (0 : ℚ) < 2 ^ (-k : Int) := zpow_pos (by norm_num) _
  rw [fract_mul_zpow] at *
  generalize hR : a % (2 ^ k : Nat) = R at *
  have hRpos : 0 < R := by exact_mod_cast pos_of_mul_pos_left hpos hunit.le
  have hRlt : R < 2 ^ 53 := by
    rw [← hR]
    refine remainder_lt ha ?_
    rw [hR]
    rw [zpow_neg, zpow_natCast, ← div_eq_mul_inv, div_lt_iff₀ (by positivity)] at hlt
    have hcast : (2 * R : ℚ) < (2 ^ k : Nat) := by
      push_cast
      linarith
    exact_mod_cast hcast
  obtain ⟨n, rfl⟩ := Int.eq_ofNat_of_zero_le hRpos.le
  obtain ⟨m, j, hcanonical, hvalue⟩ := exists_canonical (a := n) (E := -k) (by omega) (by omega)
    he (by omega)
  rw [Int.cast_natCast] at *
  refine ⟨m, j, hcanonical, ?_, hvalue⟩
  by_contra hfar
  have hlong : 2 ^ 52 ≤ m := by
    have hlong := hcanonical.long
    omega
  rw [← hvalue] at hlt
  have hhalf : (1 / 2 : ℚ) ≤ m * 2 ^ j := by
    calc (1 / 2 : ℚ) = 2 ^ 52 * 2 ^ (-53 : Int) := by norm_num
      _ ≤ m * 2 ^ j := by
        refine mul_le_mul ?_ (zpow_le_zpow_right₀ (by norm_num) (by omega)) (by positivity)
          (by positivity)
        exact_mod_cast hlong
  linarith

end Fraction

/-! ### Rounding -/

section Rounding

variable {x : Float} {v : ℚ}

/-- The mantissa of a double, with its sign, and the exponent. -/
theorem exists_mantissa (h : value? x = some v) :
    ∃ a e : Int, a.natAbs < 2 ^ 53 ∧ -1074 ≤ e ∧ e ≤ 971 ∧ v = a * 2 ^ e := by
  rw [value?_eq_some_iff] at h
  generalize hu : x.toModel.unpack = u at h
  cases h with
  | zero => exact ⟨0, 0, by decide, by decide, by decide, by simp⟩
  | @finite s m e hm =>
      have hcanonical := canonical_of_unpack hu
      refine ⟨s.apply m, e, ?_, hcanonical.ge, hcanonical.le, rfl⟩
      have hlt := hcanonical.lt
      cases s <;> simp only [UnpackedFloat.Sign.apply] <;> omega

/-- The floor of a double is that of its number. -/
theorem floor?_eq (h : value? x = some v) : floor? x = some ⌊v⌋ := by
  obtain ⟨⟨negative, m, e⟩, hparts, rfl⟩ := Option.map_eq_some_iff.mp h
  unfold floor?
  rw [hparts]
  simp only [Option.map_some, Option.some.injEq]
  by_cases hpos : 0 ≤ e
  · obtain ⟨k, rfl⟩ : ∃ k : Nat, e = k := ⟨e.toNat, by omega⟩
    rw [if_pos hpos, mul_zpow_natCast, Int.floor_intCast, Int.toNat_natCast, Nat.shiftLeft_eq]
    cases negative <;> simp [withSign]
  · obtain ⟨k, rfl⟩ : ∃ k : Nat, e = -k := ⟨(-e).toNat, by omega⟩
    have hquotient := Rat.floor_intCast_div_natCast (withSign negative m) (2 ^ k)
    rw [if_neg hpos, zpow_neg, zpow_natCast, ← div_eq_mul_inv, neg_neg, Int.toNat_natCast]
    push_cast at hquotient
    exact hquotient.symm

/-- Up to 53 bits every number is a double. -/
theorem whole_of_le {n : Nat} (h : n ≤ 2 ^ 53) : Whole n := by
  rcases Nat.lt_or_eq_of_le h with hlt | rfl
  · exact ⟨n, 0, hlt, by decide, by rw [Nat.pow_zero, Nat.mul_one]⟩
  · exact ⟨2 ^ 52, 1, by decide, by decide, by decide⟩

/-- A mantissa of 53 bits has no more of them before the point. -/
theorem floor_bounds {a e : Int} (ha : a.natAbs < 2 ^ 53) (he : e ≤ 0) :
    -2 ^ 53 ≤ ⌊(a * 2 ^ e : ℚ)⌋ ∧ ⌊(a * 2 ^ e : ℚ)⌋ < 2 ^ 53 := by
  have hunit : (0 : ℚ) < 2 ^ e := zpow_pos (by norm_num) _
  have hone : (2 : ℚ) ^ e ≤ 1 := zpow_le_one_of_nonpos₀ (by norm_num) he
  have hlow : (-2 ^ 53 : ℚ) < a := by
    have hcast : -2 ^ 53 < a := by omega
    exact_mod_cast hcast
  have hhigh : (a : ℚ) < 2 ^ 53 := by
    have hcast : a < 2 ^ 53 := by omega
    exact_mod_cast hcast
  rw [Int.le_floor, Int.floor_lt]
  push_cast
  constructor <;> nlinarith

/-- The integers next to a double are doubles. -/
theorem whole_floor (h : value? x = some v) : Whole ⌊v⌋.natAbs := by
  obtain ⟨a, e, ha, -, he, rfl⟩ := exists_mantissa h
  rcases lt_or_ge e 0 with hneg | hnonneg
  · have hbounds := floor_bounds ha hneg.le
    exact whole_of_le (by omega)
  · obtain ⟨k, rfl⟩ : ∃ k : Nat, e = k := ⟨e.toNat, by omega⟩
    rw [mul_zpow_natCast, Int.floor_intCast, Int.natAbs_mul, Int.natAbs_pow]
    exact ⟨a.natAbs, k, ha, by omega, rfl⟩

/-- Where something is behind the point the next integer is a double. -/
theorem whole_floor_add_one (h : value? x = some v) (hpos : 0 < Int.fract v) :
    Whole (⌊v⌋ + 1).natAbs := by
  obtain ⟨a, e, ha, -, he, rfl⟩ := exists_mantissa h
  rcases lt_or_ge e 0 with hneg | hnonneg
  · have hbounds := floor_bounds ha hneg.le
    exact whole_of_le (by omega)
  · obtain ⟨k, rfl⟩ : ∃ k : Nat, e = k := ⟨e.toNat, by omega⟩
    rw [mul_zpow_natCast, Int.fract_intCast] at hpos
    exact absurd hpos (lt_irrefl _)

/-- An integer that is a double is its value. -/
theorem value?_ofInt {n : Int} (h : Whole n.natAbs) : value? (Float.ofInt n) = some (n : ℚ) :=
  value?_eq_some_iff.mpr (denotes_ofInt h)

/-- **The subtraction decides about the fraction as it is.** -/
theorem half_le_sub_floor_iff (h : value? x = some v) :
    0.5 ≤ x - Float.ofInt ⌊v⌋ ↔ 1 / 2 ≤ Int.fract v := by
  have hfloor := value?_ofInt (whole_floor h)
  rcases (Int.fract_nonneg v).eq_or_lt with hzero | hpos
  · have hsame : ((⌊v⌋ : Int) : ℚ) = v := by
      have hsum := Int.floor_add_fract v
      linarith
    rw [hsame] at hfloor
    obtain ⟨s, hs⟩ := unpack_sub_of_eq h hfloor
    refine iff_of_false (not_half_le_zero hs) ?_
    rw [← hzero]
    norm_num
  · rcases lt_or_ge (Int.fract v) (1 / 2) with hlt | hge
    · obtain ⟨a, e, ha, he, -, rfl⟩ := exists_mantissa h
      obtain ⟨m, k, hcanonical, hk, hvalue⟩ := exists_canonical_fract ha he hpos hlt
      have hholds := hcanonical.holds
      rw [hvalue] at hholds
      rw [half_le_iff (unpack_sub h hfloor hcanonical hholds)]
      exact iff_of_false (by omega) (by linarith)
    · obtain ⟨m, k, hcanonical, hk, hholds⟩ := exists_holds_of_half_le hge (Int.fract_lt_one v)
      rw [half_le_iff (unpack_sub h hfloor hcanonical hholds)]
      exact iff_of_true hk hge

/-- To round half up is to go to the floor, or one above it from a half on. -/
theorem floor_add_half (v : ℚ) :
    ⌊v + 1 / 2⌋ = if 1 / 2 ≤ Int.fract v then ⌊v⌋ + 1 else ⌊v⌋ := by
  have hsum := Int.floor_add_fract v
  have hnonneg := Int.fract_nonneg v
  have hlt := Int.fract_lt_one v
  split <;> rw [Int.floor_eq_iff] <;> push_cast <;> constructor <;> linarith

/-- The integer that a double is rounded to is a double. -/
theorem whole_floor_add_half (h : value? x = some v) : Whole ⌊v + 1 / 2⌋.natAbs := by
  rw [floor_add_half]
  split
  · next hhalf => exact whole_floor_add_one h (by linarith)
  · exact whole_floor h

/-- An integer that is a double is in range. -/
theorem ofInteger?_of_whole {n : Int} (h : Whole n.natAbs) :
    ofInteger? n = some (Float.ofInt n) := by
  have hle := h.le_greatest
  exact ofInteger?_eq (by omega)

/-- A finite double denotes a number. -/
theorem exists_value (hx : x.isFinite = true) : ∃ v, value? x = some v := by
  have hfinite : x.toModel.unpack.isFinite = true := hx
  unfold value? parts?
  cases hu : x.toModel.unpack with
  | notANumber | infinity s =>
      rw [hu] at hfinite
      cases hfinite
  | zero s => exact ⟨_, rfl⟩
  | finite s m e hm => exact ⟨_, rfl⟩

end Rounding

end Reckon.Double

namespace Reckon

open Double

/-- **Rounding halves upwards is exact.** The floor of a finite double and the
integer to which it is rounded are doubles; rounding the difference to the floor
never takes a fraction across a half; and the answer is the floor of the number
and a half. -/
theorem roundHalfUp_exact {x : Float} (hx : x.isFinite = true) :
    ∃ v : ℚ, value? x = some v ∧
      floor? x = some ⌊v⌋ ∧ ofInteger? ⌊v⌋ = some (Float.ofInt ⌊v⌋) ∧
      value? (Float.ofInt ⌊v⌋) = some (⌊v⌋ : ℚ) ∧
      (0.5 ≤ x - Float.ofInt ⌊v⌋ ↔ 1 / 2 ≤ Int.fract v) ∧
      ofInteger? ⌊v + 1 / 2⌋ = some (roundHalfUp x) ∧
      value? (roundHalfUp x) = some (⌊v + 1 / 2⌋ : ℚ) := by
  obtain ⟨v, h⟩ := exists_value hx
  have hfloor := floor?_eq h
  have hwhole := whole_floor_add_half h
  have hrounded : roundHalfUp x = Float.ofInt ⌊v + 1 / 2⌋ := by
    rw [roundHalfUp, isNaN_of_floor hfloor, hfloor, floor_add_half]
    simp only [half_le_sub_floor_iff h]
    rfl
  refine ⟨v, h, hfloor, ofInteger?_of_whole (whole_floor h), value?_ofInt (whole_floor h),
    half_le_sub_floor_iff h, ?_, ?_⟩
  · rw [hrounded]
    exact ofInteger?_of_whole hwhole
  · rw [hrounded]
    exact value?_ofInt hwhole

/-- The greatest double below a half is rounded to zero. -/
theorem roundHalfUp_exact_below_half :
    (Float.ofBits 0x3FDFFFFFFFFFFFFF).isFinite = true ∧
      (∃ v : ℚ, value? (Float.ofBits 0x3FDFFFFFFFFFFFFF) = some v ∧
        floor? (Float.ofBits 0x3FDFFFFFFFFFFFFF) = some ⌊v⌋ ∧
        ofInteger? ⌊v⌋ = some (Float.ofInt ⌊v⌋) ∧
        value? (Float.ofInt ⌊v⌋) = some (⌊v⌋ : ℚ) ∧
        (0.5 ≤ Float.ofBits 0x3FDFFFFFFFFFFFFF - Float.ofInt ⌊v⌋ ↔ 1 / 2 ≤ Int.fract v) ∧
        ofInteger? ⌊v + 1 / 2⌋ = some (roundHalfUp (Float.ofBits 0x3FDFFFFFFFFFFFFF)) ∧
        value? (roundHalfUp (Float.ofBits 0x3FDFFFFFFFFFFFFF)) = some (⌊v + 1 / 2⌋ : ℚ)) ∧
      roundHalfUp (Float.ofBits 0x3FDFFFFFFFFFFFFF) = 0.0 :=
  ⟨by decide, roundHalfUp_exact (by decide), by decide +kernel⟩

end Reckon
