import Mathlib
import Reckon.Double.Shortest
import Reckon.Proofs.Places
/-!
# Rounding to the nearest double

A fraction is rounded to a double in two steps: its whole part is shifted to the
place of the last bit, and what is cut off decides on the mantissa.  Together
they find the integer nearest to the fraction in that place, a tie going to the
even one (`rounded_fraction`).

The printer of doubles has the same rounding as an interval: the numbers that
are nearer to a double than to its neighbours.  Both agree: what lies in the
rounding interval of a double is rounded to it, from whichever fraction it is
given (`roundWithAccuracy_of_holds`).  At a power of two the interval is lopsided,
and a number below it may be seen in the place before and carried over
(`roundDiv_of_edge`).
-/

namespace Reckon.Double

open Float.Model

/-! ### Canonical parts -/

/-- The mantissa and the exponent of a positive double, as they are unpacked.
Only at the least exponent the mantissa may be short. -/
structure Canonical (m : Nat) (e : Int) : Prop where
  pos : 0 < m
  lt : m < 2 ^ 53
  le : e ≤ 971
  long : e = -1074 ∨ -1074 < e ∧ 2 ^ 52 ≤ m

theorem canonical_of_unpack {x : Float} {s : UnpackedFloat.Sign} {m : Nat} {e : Int} {hm : 0 < m}
    (h : x.toModel.unpack = .finite s m e hm) : Canonical m e :=
  have ⟨hlt, hle, hlong⟩ := finite_canonical h
  ⟨hm, hlt, hle, hlong⟩

theorem log2_of_long {m : Nat} (hlong : 2 ^ 52 ≤ m) (hlt : m < 2 ^ 53) : m.log2 = 52 := by
  have hpos : m ≠ 0 := by omega
  have hge : 52 ≤ m.log2 := (Nat.le_log2 hpos).mpr hlong
  have hle : m.log2 < 53 := (Nat.log2_lt hpos).mpr hlt
  omega

section Fields

variable (s : UnpackedFloat.Sign) {m : Nat} {e : Int}

/-- An exponent field of zeros marks a short mantissa. -/
theorem unpack_short (hpos : 0 < m) (hlt : m < 2 ^ 52) :
    UnpackedFloat.unpack .binary64
      (UnpackedFloat.packComponents .binary64 s 0#11 (BitVec.ofNat 52 m)) =
        .finite s m (-1074) hpos := by
  have hsame : (BitVec.ofNat 52 m).toNat = m := by
    rw [BitVec.toNat_ofNat, Nat.mod_eq_of_lt hlt]
  have hne : BitVec.ofNat 52 m ≠ 0#52 := by
    intro hzero
    have hnat := congrArg BitVec.toNat hzero
    rw [hsame] at hnat
    exact absurd hnat (Nat.ne_of_gt hpos)
  unfold UnpackedFloat.unpack
  simp only [UnpackedFloat.unpackMantissa_packComponents,
    UnpackedFloat.unpackExponent_packComponents, UnpackedFloat.unpackSign_packComponents,
    UnpackedFloat.Sign.ofBitVec_toBitVec]
  rw [if_neg (by decide), if_pos trivial, dif_neg hne]
  simp only [hsame]
  rfl

/-- Any other field but that of the infinities stands for the exponent, and the
first bit of the mantissa is left out. -/
theorem unpack_long (hlong : 2 ^ 52 ≤ m) (hlt : m < 2 ^ 53) (hlow : -1074 ≤ e) (hle : e ≤ 971) :
    UnpackedFloat.unpack .binary64 (UnpackedFloat.packComponents .binary64 s
      (BitVec.ofNat 11 (e + 1075).toNat) (BitVec.ofNat 52 m)) =
        .finite s m e (Nat.lt_of_lt_of_le (by decide) hlong) := by
  have hfield : (BitVec.ofNat 11 (e + 1075).toNat).toNat = (e + 1075).toNat := by
    rw [BitVec.toNat_ofNat, Nat.mod_eq_of_lt (by omega)]
  have hmantissa : (1#1 ++ BitVec.ofNat 52 m).toNat = m := by
    rw [BitVec.toNat_append, ← Nat.shiftLeft_add_eq_or_of_lt (BitVec.isLt _), Nat.shiftLeft_eq,
      BitVec.toNat_ofNat, BitVec.toNat_ofNat]
    omega
  have hones : BitVec.ofNat 11 (e + 1075).toNat ≠ -1#11 := by
    intro heq
    have hnat := congrArg BitVec.toNat heq
    rw [hfield, show (-1#11).toNat = 2047 from rfl] at hnat
    omega
  have hzeros : BitVec.ofNat 11 (e + 1075).toNat ≠ 0#11 := by
    intro heq
    have hnat := congrArg BitVec.toNat heq
    rw [hfield, show (0#11).toNat = 0 from rfl] at hnat
    omega
  unfold UnpackedFloat.unpack
  simp only [UnpackedFloat.unpackMantissa_packComponents,
    UnpackedFloat.unpackExponent_packComponents, UnpackedFloat.unpackSign_packComponents,
    UnpackedFloat.Sign.ofBitVec_toBitVec]
  rw [if_neg hones, if_neg hzeros]
  have hexponent : ((BitVec.ofNat 11 (e + 1075).toNat).toNat : Int) -
      ((Format.binary64.exponentBias : Nat) + (Format.binary64.mantissaBitsWithoutImplicit : Nat)) =
        e := by
    rw [hfield, exponentBias_binary64, show Format.binary64.mantissaBitsWithoutImplicit = 52 from rfl]
    omega
  simp only [hmantissa, hexponent]

/-- A double with canonical parts is unpacked as it was packed. -/
theorem unpack_pack (h : Canonical m e) :
    UnpackedFloat.unpack .binary64 (UnpackedFloat.pack .binary64 (.finite s m e h.pos)) =
      .finite s m e h.pos := by
  obtain ⟨hpos, hlt, hle, hlong⟩ := h
  have hbits : Format.binary64.mantissaBits = 53 := rfl
  have hfields : (2 : Nat) ^ Format.binary64.exponentBits = 2048 := rfl
  have hfield : (e + (Format.binary64.exponentBias : Nat) +
      (Format.binary64.mantissaBitsWithoutImplicit : Nat)).toNat = (e + 1075).toNat := by
    rw [exponentBias_binary64, show Format.binary64.mantissaBitsWithoutImplicit = 52 from rfl]
    omega
  unfold UnpackedFloat.pack
  dsimp only
  rw [hfield, hbits, hfields, if_neg (by omega)]
  by_cases hnormal : 2 ^ 52 ≤ m
  · rw [if_pos (by rw [log2_of_long hnormal hlt])]
    exact unpack_long s hnormal hlt (by omega) hle
  · have hshort : m < 2 ^ 52 := Nat.lt_of_not_le hnormal
    have hlog : m.log2 < 52 := (Nat.log2_lt (Nat.ne_of_gt hpos)).mpr hshort
    obtain rfl : e = -1074 := by omega
    rw [if_neg (by omega)]
    exact unpack_short s hpos hshort

end Fields

/-! ### Rounding a fraction -/

section Fraction

open UnpackedFloat (ExtendedMantissa)

variable {num den : Nat}

/-- The whole part of a fraction, and where the rest of it lies to a half. -/
def ofFraction (num den : Nat) : ExtendedMantissa :=
  ⟨num / den, den ≤ 2 * (num % den), num % den ≠ 0 ∧ 2 * (num % den) ≠ den⟩

/-- A quotient is computed with the accuracy of the fraction. -/
theorem ofMantissaAndAccuracy_fraction (hden : 0 < den) :
    ExtendedMantissa.ofMantissaAndAccuracy (num / den)
      (UnpackedFloat.accuracyOfFraction (num % den) den) = ofFraction num den := by
  unfold UnpackedFloat.accuracyOfFraction ofFraction
  generalize num % den = r
  by_cases hr : r = 0
  · have hhalf : ¬ den ≤ 0 := Nat.not_le.mpr hden
    simp [hr, hhalf, ExtendedMantissa.ofMantissaAndAccuracy]
  · rw [if_neg hr]
    rcases Nat.lt_trichotomy (2 * r) den with hlt | heq | hgt
    · rw [compare_lt_iff_lt.mpr hlt]
      simp [ExtendedMantissa.ofMantissaAndAccuracy, hr, Nat.not_le.mpr hlt, Nat.ne_of_lt hlt]
    · rw [compare_eq_iff_eq.mpr heq]
      simp [ExtendedMantissa.ofMantissaAndAccuracy, heq]
    · rw [compare_gt_iff_gt.mpr hgt]
      simp [ExtendedMantissa.ofMantissaAndAccuracy, hr, Nat.le_of_lt hgt, Nat.ne_of_gt hgt]

/-- Shifting by a bit halves the fraction. -/
theorem shiftRightOne_ofFraction (hden : 0 < den) :
    (ofFraction num den).shiftRightOne = ofFraction num (den * 2) := by
  have hmod : num % (den * 2) = num % den + den * (num / den % 2) := Nat.mod_mul
  have hr : num % den < den := Nat.mod_lt _ hden
  have hround : (num / den % 2 != 0) = decide (den * 2 ≤ 2 * (num % (den * 2))) := by
    rw [hmod, Bool.eq_iff_iff, bne_iff_ne, decide_eq_true_iff]
    rcases Nat.mod_two_eq_zero_or_one (num / den) with heven | hodd
    · rw [heven]
      omega
    · rw [hodd]
      omega
  have hsticky : (decide (den ≤ 2 * (num % den)) ||
      decide (num % den ≠ 0 ∧ 2 * (num % den) ≠ den)) =
        decide (num % (den * 2) ≠ 0 ∧ 2 * (num % (den * 2)) ≠ den * 2) := by
    rw [hmod, Bool.eq_iff_iff, Bool.or_eq_true, decide_eq_true_iff, decide_eq_true_iff,
      decide_eq_true_iff]
    rcases Nat.mod_two_eq_zero_or_one (num / den) with heven | hodd
    · rw [heven]
      omega
    · rw [hodd]
      omega
  unfold ofFraction ExtendedMantissa.shiftRightOne
  rw [← hround, ← hsticky, Nat.div_div_eq_div_mul]

theorem ofFraction_shiftRight (hden : 0 < den) (k : Nat) :
    ofFraction num den >>> k = ofFraction num (den * 2 ^ k) := by
  induction k with
  | zero => simp [HShiftRight.hShiftRight, Nat.repeat]
  | succ k ih =>
      show (ofFraction num den >>> k).shiftRightOne = _
      rw [ih, shiftRightOne_ofFraction (Nat.mul_pos hden (Nat.two_pow_pos k)), pow_succ,
        Nat.mul_assoc]

/-- The nearest integer to a fraction, a tie going to the even one. -/
theorem roundedMantissa_ofFraction (num den : Nat) :
    (ofFraction num den).roundedMantissa = roundDiv num den := by
  unfold ofFraction roundDiv ExtendedMantissa.roundedMantissa
  generalize num / den = q
  generalize num % den = r
  rcases Nat.lt_trichotomy (2 * r) den with hlt | heq | hgt
  · rw [compare_lt_iff_lt.mpr hlt]
    have hbelow : decide (den ≤ 2 * r) = false := decide_eq_false (Nat.not_le.mpr hlt)
    rw [hbelow]
    cases decide (r ≠ 0 ∧ 2 * r ≠ den) <;> rfl
  · rw [compare_eq_iff_eq.mpr heq]
    simp [ExtendedMantissa.accuracy, UnpackedFloat.Accuracy.roundToNearestEven, heq]
  · rw [compare_gt_iff_gt.mpr hgt]
    have hr : r ≠ 0 := by omega
    simp [ExtendedMantissa.accuracy, UnpackedFloat.Accuracy.roundToNearestEven, hr,
      Nat.le_of_lt hgt, Nat.ne_of_gt hgt]

/-- A quotient is rounded as the fraction that it stands for. -/
theorem rounded_fraction (num : Nat) (hden : 0 < den) (e : Int) :
    rounded (UnpackedFloat.accuracyOfFraction (num % den) den) (num / den) e =
      roundDiv num (den * 2 ^ shift (num / den) e) := by
  rw [rounded, ofMantissaAndAccuracy_fraction hden, ofFraction_shiftRight hden,
    roundedMantissa_ofFraction]

end Fraction

/-- An integer is the nearest one to a fraction that is less than a half away from
it, and an even integer also to one that is a half away. -/
theorem roundDiv_eq {num den r : Nat} (hden : 0 < den)
    (h : 2 * (r * den) < 2 * num + den ∧ 2 * num < 2 * (r * den) + den ∨
      r % 2 = 0 ∧ 2 * (r * den) ≤ 2 * num + den ∧ 2 * num ≤ 2 * (r * den) + den) :
    roundDiv num den = r := by
  have hsplit : num = num / den * den + num % den := (Nat.div_add_mod' num den).symm
  have hrest : num % den < den := Nat.mod_lt _ hden
  unfold roundDiv
  generalize num / den = q at *
  generalize num % den = t at *
  have hcases : r = q ∨ r = q + 1 := by
    rcases Nat.lt_trichotomy r q with hlt | rfl | hgt
    · have hfar : r * den + den ≤ q * den := by
        rw [← Nat.succ_mul]
        exact Nat.mul_le_mul_right _ hlt
      omega
    · exact .inl rfl
    · rcases Nat.lt_or_eq_of_le (Nat.succ_le_of_lt hgt) with hfar | rfl
      · have hfar : q * den + den + den ≤ r * den := by
          rw [← Nat.succ_mul, ← Nat.succ_mul]
          exact Nat.mul_le_mul_right _ hfar
        omega
      · exact .inr rfl
  rcases hcases with rfl | rfl
  · rcases Nat.lt_trichotomy (2 * t) den with hlt | heq | hgt
    · rw [compare_lt_iff_lt.mpr hlt]
    · rw [compare_eq_iff_eq.mpr heq]
      show r + r % 2 = r
      omega
    · omega
  · rw [Nat.succ_mul q den] at h
    rcases Nat.lt_trichotomy (2 * t) den with hlt | heq | hgt
    · omega
    · rw [compare_eq_iff_eq.mpr heq]
      show q + q % 2 = q + 1
      omega
    · rw [compare_gt_iff_gt.mpr hgt]

theorem roundDiv_spec (num : Nat) {den : Nat} (hden : 0 < den) :
    2 * (roundDiv num den * den) < 2 * num + den ∧ 2 * num < 2 * (roundDiv num den * den) + den ∨
      roundDiv num den % 2 = 0 ∧ 2 * (roundDiv num den * den) ≤ 2 * num + den ∧
        2 * num ≤ 2 * (roundDiv num den * den) + den := by
  have hsplit : num = num / den * den + num % den := (Nat.div_add_mod' num den).symm
  have hrest : num % den < den := Nat.mod_lt _ hden
  unfold roundDiv
  generalize num / den = q at *
  generalize num % den = t at *
  rcases Nat.lt_trichotomy (2 * t) den with hlt | heq | hgt
  · rw [compare_lt_iff_lt.mpr hlt]
    dsimp only
    omega
  · rw [compare_eq_iff_eq.mpr heq]
    dsimp only
    rcases Nat.mod_two_eq_zero_or_one q with heven | hodd
    · rw [heven, Nat.add_zero]
      omega
    · rw [hodd, Nat.succ_mul q den]
      omega
  · rw [compare_gt_iff_gt.mpr hgt]
    dsimp only
    rw [Nat.succ_mul q den]
    omega

/-- How a rounded mantissa is put in its place. -/
theorem roundWithAccuracy_eq {s : UnpackedFloat.Sign} {m r m' : Nat} {e e' : Int}
    {acc : UnpackedFloat.Accuracy} (hr : rounded acc m e = r)
    (hm : r / 2 ^ shift r (e + shift m e) = m')
    (he : e + shift m e + shift r (e + shift m e) = e') (hpos : 0 < m') :
    UnpackedFloat.roundWithAccuracy .binary64 s m e acc = .finite s m' e' hpos := by
  subst hr he
  have hmantissa : (exactly (rounded acc m e) >>> shift (rounded acc m e) (e + shift m e)).mantissa =
      m' := (mantissa_shiftRight _ _).trans hm
  have hne : (exactly (rounded acc m e) >>> shift (rounded acc m e) (e + shift m e)).mantissa ≠ 0 := by
    rw [hmantissa]
    exact Nat.ne_of_gt hpos
  have hplaced : UnpackedFloat.roundWithAccuracy .binary64 s m e acc = .finite s
      (exactly (rounded acc m e) >>> shift (rounded acc m e) (e + shift m e)).mantissa
      (e + shift m e + shift (rounded acc m e) (e + shift m e)) (Nat.pos_of_ne_zero hne) :=
    dif_neg hne
  rw [hplaced]
  exact finite_eq _ hmantissa

/-- Canonical parts are in place. -/
theorem shift_of_canonical {m : Nat} {e : Int} (h : Canonical m e) : shift m e = 0 := by
  have hlog := log2_lt_of_lt (by decide) h.lt
  have hlong := h.long
  simp only [shift, totalExponent]
  omega

/-! ### Rounding intervals -/

/-- A number lies in an interval. -/
def Interval.Holds (i : Interval) (v : ℚ) : Prop :=
  if i.closed then i.low * 2 ^ i.quarter ≤ v ∧ v ≤ i.high * 2 ^ i.quarter
  else i.low * 2 ^ i.quarter < v ∧ v < i.high * 2 ^ i.quarter

/-- What lies in an interval, in quarters of the last place. -/
theorem Interval.holds_iff {i : Interval} {w : ℚ} : i.Holds (w * 2 ^ i.quarter) ↔
    if i.closed then i.low ≤ w ∧ w ≤ i.high else i.low < w ∧ w < i.high := by
  have hpos : (0 : ℚ) < 2 ^ i.quarter := zpow_pos (by norm_num) _
  unfold Interval.Holds
  split
  · rw [mul_le_mul_iff_left₀ hpos, mul_le_mul_iff_left₀ hpos]
  · rw [mul_lt_mul_iff_left₀ hpos, mul_lt_mul_iff_left₀ hpos]

theorem Interval.Holds.bounds {i : Interval} {v : ℚ} (h : i.Holds v) :
    i.low * 2 ^ i.quarter ≤ v ∧ v ≤ i.high * 2 ^ i.quarter := by
  unfold Interval.Holds at h
  split at h
  · exact h
  · exact ⟨h.1.le, h.2.le⟩

section Holds

variable {m : Nat} {e : Int}

/-- Below a power of two the neighbour is nearer. -/
theorem Interval.low_edge (hm : m = 2 ^ 52) (he : e ≠ -1074) :
    ((Interval.of m e).low : ℚ) = 4 * m - 1 := by
  have hlow : (Interval.of m e).low = 4 * m - 1 := if_pos ⟨hm, he⟩
  rw [hlow, Nat.cast_sub (by omega)]
  push_cast
  rfl

theorem Interval.low_inner (hpos : 0 < m) (h : ¬ (m = 2 ^ 52 ∧ e ≠ -1074)) :
    ((Interval.of m e).low : ℚ) = 4 * m - 2 := by
  have hlow : (Interval.of m e).low = 4 * m - 2 := if_neg h
  rw [hlow, Nat.cast_sub (by omega)]
  push_cast
  rfl

theorem Interval.high_of (m : Nat) (e : Int) : ((Interval.of m e).high : ℚ) = 4 * m + 2 := by
  simp [Interval.of]

/-- What lies in the interval of a double, in units of its last place. -/
theorem Interval.holds_of_iff {w : ℚ} : (Interval.of m e).Holds (w * 2 ^ e) ↔
    if (Interval.of m e).closed then (Interval.of m e).low ≤ 4 * w ∧ 4 * w ≤ 4 * m + 2
    else (Interval.of m e).low < 4 * w ∧ 4 * w < 4 * m + 2 := by
  have hquarters : w * 2 ^ e = 4 * w * 2 ^ (Interval.of m e).quarter := by
    have hquarter : (Interval.of m e).quarter = e - 2 := rfl
    rw [hquarter, zpow_sub₀ two_ne_zero]
    norm_num
    ring
  rw [hquarters, Interval.holds_iff, Interval.high_of]

/-- A number with 53 bits in front of a place that lies in the rounding interval
of a double has the exponent of the double there.  Below a power of two it may
have the one before. -/
theorem place_of_holds (h : Canonical m e) {u : ℚ} {E : Int} (hE : -1074 ≤ E) (hu : 0 ≤ u)
    (hshort : u < 2 ^ 53) (hlong : -1074 < E → 2 ^ 52 ≤ u)
    (hv : (Interval.of m e).Holds (u * 2 ^ E)) :
    E = e ∨ E = e - 1 ∧ m = 2 ^ 52 ∧ e ≠ -1074 := by
  have hbits := h.long
  obtain ⟨w, hw⟩ : ∃ w : ℚ, w = u * 2 ^ (E - (e - 2)) := ⟨_, rfl⟩
  have hscaled : u * 2 ^ E = w * 2 ^ (e - 2) := by
    rw [hw, mul_assoc, ← zpow_add₀ two_ne_zero, sub_add_cancel]
  have hunit : (0 : ℚ) < 2 ^ (e - 2) := zpow_pos (by norm_num) _
  obtain ⟨hlow, hhigh⟩ := hv.bounds
  rw [hscaled] at hlow hhigh
  replace hlow := le_of_mul_le_mul_right hlow hunit
  replace hhigh := le_of_mul_le_mul_right hhigh hunit
  rw [Interval.high_of] at hhigh
  have hle (k : Int) (hk : E - (e - 2) ≤ k) : w ≤ u * 2 ^ k := by
    rw [hw]
    exact mul_le_mul_of_nonneg_left (zpow_le_zpow_right₀ (by norm_num) hk) hu
  have hge (k : Int) (hk : k ≤ E - (e - 2)) : u * 2 ^ k ≤ w := by
    rw [hw]
    exact mul_le_mul_of_nonneg_left (zpow_le_zpow_right₀ (by norm_num) hk) hu
  rcases Int.lt_trichotomy E e with hlt | heq | hgt
  · right
    have hedge : m = 2 ^ 52 ∧ e ≠ -1074 := by
      by_contra hinner
      rw [Interval.low_inner h.pos hinner] at hlow
      have hm : (2 ^ 52 + 1 : ℚ) ≤ m := by
        have hcast : 2 ^ 52 + 1 ≤ m := by omega
        exact_mod_cast hcast
      have hhalf := hle 1 (by omega)
      rw [zpow_one] at hhalf
      linarith
    refine ⟨?_, hedge⟩
    by_contra hfar
    rw [Interval.low_edge hedge.1 hedge.2, hedge.1] at hlow
    have hquarter := hle 0 (by omega)
    rw [zpow_zero] at hquarter
    push_cast at hlow
    linarith
  · exact .inl heq
  · exfalso
    have hm : (m : ℚ) + 1 ≤ 2 ^ 53 := by
      have hcast : m + 1 ≤ 2 ^ 53 := h.lt
      exact_mod_cast hcast
    have hfar := hge 3 (by omega)
    have hsize := hlong (by omega)
    norm_num at hfar
    linarith

theorem Interval.low_ge (hpos : 0 < m) : (4 * m - 2 : ℚ) ≤ (Interval.of m e).low := by
  by_cases hedge : m = 2 ^ 52 ∧ e ≠ -1074
  · rw [Interval.low_edge hedge.1 hedge.2]
    linarith
  · rw [Interval.low_inner hpos hedge]

/-- In its own place a number in the rounding interval of a double is rounded to
the mantissa. -/
theorem roundDiv_of_holds (hpos : 0 < m) {num den : Nat} (hden : 0 < den)
    (hv : (Interval.of m e).Holds (num / den * 2 ^ e)) : roundDiv num den = m := by
  have hden' : (0 : ℚ) < den := by exact_mod_cast hden
  have hlow : (4 * m - 2 : ℚ) ≤ (Interval.of m e).low := Interval.low_ge hpos
  rw [Interval.holds_of_iff, ← mul_div_assoc] at hv
  apply roundDiv_eq hden
  split at hv
  · next hclosed =>
      right
      refine ⟨of_decide_eq_true hclosed, ?_, ?_⟩
      · have hle := (le_div_iff₀ hden').mp (hlow.trans hv.1)
        have hcast : (2 * (m * den) : ℚ) ≤ 2 * num + den := by linarith
        exact_mod_cast hcast
      · have hle := (div_le_iff₀ hden').mp hv.2
        have hcast : (2 * num : ℚ) ≤ 2 * (m * den) + den := by linarith
        exact_mod_cast hcast
  · left
    constructor
    · have hlt := (lt_div_iff₀ hden').mp (hlow.trans_lt hv.1)
      have hcast : (2 * (m * den) : ℚ) < 2 * num + den := by linarith
      exact_mod_cast hcast
    · have hlt := (div_lt_iff₀ hden').mp hv.2
      have hcast : (2 * num : ℚ) < 2 * (m * den) + den := by linarith
      exact_mod_cast hcast

/-- A place counts for two of the one before. -/
theorem mul_zpow_succ (w : ℚ) (e : Int) : w * 2 ^ e = w / 2 * 2 ^ (e + 1) := by
  rw [zpow_add₀ two_ne_zero, zpow_one]
  ring

/-- One place further, below a power of two, it is rounded up to that. -/
theorem roundDiv_of_edge (he : e ≠ -1074) {num den : Nat} (hden : 0 < den)
    (hnum : num < 2 ^ 53 * den)
    (hv : (Interval.of (2 ^ 52) e).Holds (num / den * 2 ^ (e - 1))) :
    roundDiv num den = 2 ^ 53 := by
  have hden' : (0 : ℚ) < den := by exact_mod_cast hden
  have hclosed : (Interval.of (2 ^ 52) e).closed = true := rfl
  rw [mul_zpow_succ, sub_add_cancel, Interval.holds_of_iff, if_pos hclosed,
    Interval.low_edge rfl he] at hv
  have hlow : (2 ^ 53 - 1 / 2 : ℚ) ≤ num / den := by
    have hbelow := hv.1
    push_cast at hbelow
    linarith
  have hle := (le_div_iff₀ hden').mp hlow
  apply roundDiv_eq hden
  right
  refine ⟨by norm_num, ?_, by omega⟩
  have hcast : (2 * (2 ^ 53 * den) : ℚ) ≤ 2 * num + den := by linarith
  exact_mod_cast hcast

/-- After the shift a fraction has 53 bits in front of the point, or fewer at the
least place. -/
theorem shifted_bounds {num den : Nat} (hden : 0 < den) {e₀ : Int}
    (hplace : e₀ + shift (num / den) e₀ = max (totalExponent (num / den) e₀ - 53) (-1074)) :
    num < 2 ^ 53 * (den * 2 ^ shift (num / den) e₀) ∧
      (-1074 < e₀ + shift (num / den) e₀ →
        2 ^ 52 * (den * 2 ^ shift (num / den) e₀) ≤ num) := by
  have hshort := div_shift_lt (num / den) e₀
  generalize shift (num / den) e₀ = k at *
  rw [Nat.div_div_eq_div_mul] at hshort
  refine ⟨(Nat.div_lt_iff_lt_mul (Nat.mul_pos hden (Nat.two_pow_pos k))).mp hshort, fun hlow => ?_⟩
  have hlog : (num / den).log2 = 52 + k := by
    simp only [totalExponent] at hplace
    omega
  have hne : num / den ≠ 0 := by
    intro hzero
    rw [hzero, Nat.log2_zero] at hlog
    omega
  calc 2 ^ 52 * (den * 2 ^ k) = 2 ^ (num / den).log2 * den := by
        rw [hlog, Nat.pow_add, Nat.mul_comm den, Nat.mul_assoc]
    _ ≤ num / den * den := Nat.mul_le_mul_right _ (Nat.log2_self_le hne)
    _ ≤ num := Nat.div_mul_le_self num den

/-- A shifted fraction is the same number, seen from its place. -/
theorem shifted_value (num : Nat) {den : Nat} (hden : 0 < den) (e : Int) (k : Nat) :
    (num / den * 2 ^ e : ℚ) = num / (den * 2 ^ k : Nat) * 2 ^ (e + k) := by
  have hden' : (den : ℚ) ≠ 0 := by exact_mod_cast Nat.ne_of_gt hden
  rw [zpow_add₀ two_ne_zero, zpow_natCast]
  push_cast
  field_simp

/-- A power of two is carried to the next place. -/
theorem shift_two_pow {E : Int} (h : -1074 ≤ E) : shift (2 ^ 53) E = 1 := by
  have hlog : (2 ^ 53 : Nat).log2 = 53 := Nat.log2_two_pow
  simp only [shift, totalExponent, hlog]
  omega

/-- **What lies in the rounding interval of a double is rounded to it.** -/
theorem roundWithAccuracy_of_holds (h : Canonical m e) (s : UnpackedFloat.Sign) {num den : Nat}
    {e₀ : Int} (hden : 0 < den)
    (hplace : e₀ ≤ max (totalExponent (num / den) e₀ - 53) (-1074))
    (hv : (Interval.of m e).Holds (num / den * 2 ^ e₀)) :
    UnpackedFloat.roundWithAccuracy .binary64 s (num / den) e₀
      (UnpackedFloat.accuracyOfFraction (num % den) den) = .finite s m e h.pos := by
  have hE : e₀ + shift (num / den) e₀ = max (totalExponent (num / den) e₀ - 53) (-1074) := by
    rw [add_shift]
    omega
  obtain ⟨hshort, hlong⟩ := shifted_bounds hden hE
  have hrounded := rounded_fraction num hden e₀
  rw [shifted_value num hden e₀ (shift (num / den) e₀)] at hv
  have hDpos : 0 < den * 2 ^ shift (num / den) e₀ := Nat.mul_pos hden (Nat.two_pow_pos _)
  generalize den * 2 ^ shift (num / den) e₀ = D at *
  have hDpos' : (0 : ℚ) < D := by exact_mod_cast hDpos
  have hcase : e₀ + shift (num / den) e₀ = e ∨
      e₀ + shift (num / den) e₀ = e - 1 ∧ m = 2 ^ 52 ∧ e ≠ -1074 := by
    refine place_of_holds h (by omega) (by positivity) ?_ (fun hlow => ?_) hv
    · rw [div_lt_iff₀ hDpos']
      exact_mod_cast hshort
    · rw [le_div_iff₀ hDpos']
      exact_mod_cast hlong hlow
  rcases hcase with heq | ⟨hedge, rfl, hne⟩
  · rw [heq] at hv
    rw [roundDiv_of_holds h.pos hDpos hv] at hrounded
    have hshift : shift m (e₀ + shift (num / den) e₀) = 0 := heq ▸ shift_of_canonical h
    refine roundWithAccuracy_eq hrounded ?_ ?_ h.pos
    · rw [hshift, Nat.pow_zero, Nat.div_one]
    · rw [hshift]
      omega
  · rw [hedge] at hv
    rw [roundDiv_of_edge hne hDpos hshort hv] at hrounded
    have hshift : shift (2 ^ 53) (e₀ + shift (num / den) e₀) = 1 := shift_two_pow (by omega)
    refine roundWithAccuracy_eq hrounded ?_ ?_ h.pos
    · rw [hshift]
      norm_num
    · rw [hshift]
      omega

end Holds

end Reckon.Double
