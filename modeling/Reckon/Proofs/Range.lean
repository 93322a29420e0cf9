import Mathlib.Tactic.NormNum
import Mathlib.Tactic.Ring
import Reckon.Arithmetic
/-!
# Integers in the range of doubles

Rounding a double to an integer goes through the integers: the floor of a
finite double, or the integer above it, is made a double again.  Such an
integer exceeds the greatest finite double by one at most, and so it is still
in range (`ofInteger?_of_floor?`).

An unpacked double is packed without loss of its range as long as its exponent
is at most 971; what has to be seen is that rounding a mantissa of at most 53
bits cannot push the exponent further.
-/

namespace Reckon.Double

open Float.Model

/-! ### Rounding a mantissa -/

section Mantissa

open UnpackedFloat (ExtendedMantissa)

/-- A mantissa without residual bits. -/
def exactly (m : Nat) : ExtendedMantissa :=
  ⟨m, false, false⟩

/-- A shift to the right divides the mantissa by a power of two. -/
theorem mantissa_shiftRight (em : ExtendedMantissa) (k : Nat) :
    (em >>> k).mantissa = em.mantissa / 2 ^ k := by
  induction k with
  | zero => simp [HShiftRight.hShiftRight, Nat.repeat]
  | succ k ih =>
      show (em >>> k).mantissa / 2 = _
      rw [ih, Nat.div_div_eq_div_mul, Nat.pow_succ]

/-- The round bit is the last bit that is shifted out. -/
theorem roundBit_shiftRight (em : ExtendedMantissa) (k : Nat) :
    (em >>> (k + 1)).roundBit = (em.mantissa / 2 ^ k % 2 != 0) := by
  show ((em >>> k).mantissa % 2 != 0) = _
  rw [mantissa_shiftRight]

/-- To round up adds one at most. -/
theorem roundedMantissa_le (em : ExtendedMantissa) :
    em.roundedMantissa ≤ em.mantissa + 1 := by
  obtain ⟨mantissa, roundBit, stickyBit⟩ := em
  cases roundBit <;> cases stickyBit <;>
    simp [ExtendedMantissa.roundedMantissa, ExtendedMantissa.accuracy,
      UnpackedFloat.Accuracy.roundToNearestEven]
  omega

/-- Below a half nothing is rounded up. -/
theorem roundedMantissa_eq {em : ExtendedMantissa} (h : em.roundBit = false) :
    em.roundedMantissa = em.mantissa := by
  obtain ⟨mantissa, roundBit, stickyBit⟩ := em
  obtain rfl : roundBit = false := h
  cases stickyBit <;> rfl

end Mantissa

/-! ### Exponents in range -/

/-- Neither an infinity nor NaN, and with an exponent of at most `E`. -/
def Within (E : Int) : UnpackedFloat → Prop
  | .zero _ => True
  | .finite _ _ e _ => e ≤ E
  | _ => False

/-- A higher bound is met as well. -/
theorem Within.mono {E E' : Int} {u : UnpackedFloat} (h : Within E u) (hle : E ≤ E') :
    Within E' u := by
  cases u with
  | infinity | notANumber => exact h
  | zero => trivial
  | finite s m e hm => exact Int.le_trans h hle

/-- A mantissa that may be zero has the sign of a zero, or its exponent. -/
theorem within_of_mantissa {E e : Int} {s : UnpackedFloat.Sign} {m : Nat} (he : e ≤ E) :
    Within E (if h : m = 0 then .zero s else .finite s m e (Nat.pos_of_ne_zero h)) := by
  by_cases h : m = 0
  · rw [dif_pos h]
    trivial
  · rw [dif_neg h]
    exact he

/-- The bias of the exponents of doubles. -/
theorem exponentBias_binary64 : Format.binary64.exponentBias = 1023 := rfl

/-- How far a mantissa is shifted to its place. -/
def shift (m : Nat) (e : Int) : Nat :=
  (max (totalExponent m e - 53) (-1074) - e).toNat

/-- The mantissa after the first shift, rounded.  It stands for a number with
some accuracy. -/
def rounded (acc : UnpackedFloat.Accuracy) (m : Nat) (e : Int) : Nat :=
  (UnpackedFloat.ExtendedMantissa.ofMantissaAndAccuracy m acc >>> shift m e).roundedMantissa

/-- An exact mantissa is shifted without residual bits. -/
theorem rounded_exact (m : Nat) (e : Int) :
    rounded .exact m e = (exactly m >>> shift m e).roundedMantissa := rfl

/-- Rounding moves an exponent within the ranges that the rounded mantissa
sets. -/
theorem within_roundWithAccuracy {E : Int} {s : UnpackedFloat.Sign} {m : Nat} {e : Int}
    {acc : UnpackedFloat.Accuracy} (he : e + shift m e ≤ E)
    (hr : totalExponent (rounded acc m e) (e + shift m e) ≤ E + 53) (hE : -1074 ≤ E) :
    Within E (UnpackedFloat.roundWithAccuracy .binary64 s m e acc) := by
  have hplace : e + shift m e + shift (rounded acc m e) (e + shift m e) ≤ E := by
    simp only [shift] at he hr ⊢
    omega
  exact within_of_mantissa hplace

/-- The exponent after the shift: at least that of the number, of a full
mantissa and of the least doubles. -/
theorem add_shift (m : Nat) (e : Int) :
    e + shift m e = max e (max (totalExponent m e - 53) (-1074)) := by
  simp only [shift]
  omega

/-- After the shift a mantissa has at most 53 bits. -/
theorem div_shift_lt (m : Nat) (e : Int) : m / 2 ^ shift m e < 2 ^ 53 := by
  have hm : m < 2 ^ (m.log2 + 1) := Nat.lt_log2_self
  have hshift : m.log2 + 1 ≤ 53 + shift m e := by
    simp only [shift, totalExponent]
    omega
  apply Nat.div_lt_of_lt_mul
  calc m < 2 ^ (m.log2 + 1) := hm
    _ ≤ 2 ^ (53 + shift m e) := Nat.pow_le_pow_right (by decide) hshift
    _ = 2 ^ shift m e * 2 ^ 53 := by rw [Nat.pow_add, Nat.mul_comm]

/-- Rounding adds one at most. -/
theorem rounded_le (acc : UnpackedFloat.Accuracy) (m : Nat) (e : Int) :
    rounded acc m e ≤ m / 2 ^ shift m e + 1 := by
  have hmantissa :
      (UnpackedFloat.ExtendedMantissa.ofMantissaAndAccuracy m acc).mantissa = m := by
    rcases acc with _ | _ | _ | _ <;> rfl
  have hle := roundedMantissa_le
    (UnpackedFloat.ExtendedMantissa.ofMantissaAndAccuracy m acc >>> shift m e)
  rwa [mantissa_shiftRight, hmantissa] at hle

/-- A mantissa that is in place stays as it is. -/
theorem rounded_of_shift_eq_zero {m : Nat} {e : Int} (h : shift m e = 0) :
    rounded .exact m e = m := by
  rw [rounded_exact, h]
  rfl

/-- A number below a power of two has a smaller logarithm. -/
theorem log2_lt_of_lt {m k : Nat} (hk : 0 < k) (h : m < 2 ^ k) : m.log2 < k := by
  by_cases hzero : m = 0
  · simpa [hzero] using hk
  · exact (Nat.log2_lt hzero).mpr h

/-- A mantissa that stays below 53 bits when it is rounded needs no second
shift. -/
theorem within_of_rounded_lt {E : Int} {s : UnpackedFloat.Sign} {m : Nat} {e : Int} (he : e ≤ E)
    (htotal : totalExponent m e ≤ E + 53) (hr : rounded .exact m e < 2 ^ 53) (hE : -1074 ≤ E) :
    Within E (UnpackedFloat.roundWithAccuracy .binary64 s m e .exact) := by
  have hplace : e + shift m e ≤ E := by
    rw [add_shift]
    omega
  refine within_roundWithAccuracy hplace ?_ hE
  have hlog := log2_lt_of_lt (by decide) hr
  simp only [totalExponent]
  omega

/-- A number of at most 52 bits above the exponent is rounded to no more,
whatever its accuracy. -/
theorem within_of_total {E : Int} {s : UnpackedFloat.Sign} {m : Nat} {e : Int}
    {acc : UnpackedFloat.Accuracy} (he : e ≤ E) (htotal : totalExponent m e ≤ E + 52)
    (hE : -1073 ≤ E) : Within E (UnpackedFloat.roundWithAccuracy .binary64 s m e acc) := by
  have hle := rounded_le acc m e
  by_cases hshift : shift m e = 0
  · refine within_roundWithAccuracy ?_ ?_ (by omega)
    · rw [hshift]
      omega
    · have hm : m < 2 ^ (m.log2 + 1) := Nat.lt_log2_self
      have hpow : 2 ^ (m.log2 + 1 + 1) = 2 ^ (m.log2 + 1) * 2 := pow_succ 2 _
      have hlog : (rounded acc m e).log2 < m.log2 + 1 + 1 := by
        refine log2_lt_of_lt (Nat.succ_pos _) ?_
        rw [hshift, Nat.pow_zero, Nat.div_one] at hle
        omega
      rw [hshift]
      simp only [totalExponent] at htotal ⊢
      omega
  · have hplace : e + shift m e ≤ E - 1 := by
      have hmoved := add_shift m e
      omega
    refine within_roundWithAccuracy (by omega) ?_ (by omega)
    have hlog : (rounded acc m e).log2 < 54 := by
      have hlt := div_shift_lt m e
      exact log2_lt_of_lt (by decide) (by omega)
    simp only [totalExponent]
    omega

/-! ### Packed doubles -/

section Packed

variable {E : Int} {b : BitVec Format.binary64.numBits}

/-- The exponent field of all ones belongs to the infinities and NaN; with any
other, a double is a zero or has a mantissa of at most 53 bits and an exponent
that the field bounds.  Only at the least exponent the mantissa may be shorter. -/
theorem unpack_cases (h : (UnpackedFloat.unpackExponent b).toNat ≠ 2047) :
    (∃ s, UnpackedFloat.unpack .binary64 b = .zero s) ∨
      ∃ s m e hm, UnpackedFloat.unpack .binary64 b = .finite s m e hm ∧ m < 2 ^ 53 ∧
        e ≤ max (((UnpackedFloat.unpackExponent b).toNat : Int) - 1075) (-1074) ∧
        (e = -1074 ∨ -1074 < e ∧ 2 ^ 52 ≤ m) := by
  have hones : UnpackedFloat.unpackExponent b ≠ -1#11 := by
    intro hfield
    rw [hfield] at h
    exact h rfl
  unfold UnpackedFloat.unpack
  dsimp only
  rw [if_neg hones, exponentBias_binary64]
  by_cases hzeros : UnpackedFloat.unpackExponent b = 0#11
  · rw [if_pos hzeros]
    by_cases hmantissa : UnpackedFloat.unpackMantissa b = 0#52
    · exact .inl ⟨_, dif_pos hmantissa⟩
    · have hzero : (UnpackedFloat.unpackExponent b).toNat = 0 := by
        rw [hzeros]
        rfl
      have hlt : (UnpackedFloat.unpackMantissa b).toNat < 2 ^ 53 :=
        Nat.lt_trans (UnpackedFloat.unpackMantissa b).isLt (by decide)
      have hpos : 0 < (UnpackedFloat.unpackMantissa b).toNat :=
        Nat.pos_of_ne_zero fun hnone => hmantissa (BitVec.eq_of_toNat_eq hnone)
      exact .inr ⟨_, _, _, hpos, dif_neg hmantissa, hlt, by omega, .inl (by omega)⟩
  · rw [if_neg hzeros]
    have hlt := (1#1 ++ UnpackedFloat.unpackMantissa b).isLt
    have hlong : 2 ^ 52 ≤ (1#1 ++ UnpackedFloat.unpackMantissa b).toNat := by
      rw [BitVec.toNat_append]
      exact Nat.left_le_or
    have hfield : (UnpackedFloat.unpackExponent b).toNat ≠ 0 := fun hnone =>
      hzeros (BitVec.eq_of_toNat_eq hnone)
    exact .inr ⟨_, _, _, Nat.lt_of_lt_of_le (by decide) hlong, rfl, hlt, by omega, by omega⟩

/-- What is unpacked has at most the exponent of its field, unless that is full.
-/
theorem within_unpack (h : (UnpackedFloat.unpackExponent b).toNat ≠ 2047) :
    Within (max ((UnpackedFloat.unpackExponent b).toNat - 1075) (-1074))
      (UnpackedFloat.unpack .binary64 b) := by
  rcases unpack_cases h with ⟨s, hu⟩ | ⟨s, m, e, hm, hu, -, he, -⟩
  · rw [hu]
    trivial
  · rw [hu]
    exact he

/-- A finite double has a mantissa of at most 53 bits and an exponent in range.
A shorter mantissa has the least exponent. -/
theorem finite_canonical {s : UnpackedFloat.Sign} {m : Nat} {e : Int} {hm : 0 < m}
    (h : UnpackedFloat.unpack .binary64 b = .finite s m e hm) :
    m < 2 ^ 53 ∧ e ≤ 971 ∧ (e = -1074 ∨ -1074 < e ∧ 2 ^ 52 ≤ m) := by
  have hexponent : (UnpackedFloat.unpackExponent b).toNat < 2048 :=
    (UnpackedFloat.unpackExponent b).isLt
  by_cases hones : (UnpackedFloat.unpackExponent b).toNat = 2047
  · have hfield : UnpackedFloat.unpackExponent b = -1#11 := BitVec.eq_of_toNat_eq hones
    unfold UnpackedFloat.unpack at h
    dsimp only at h
    rw [if_pos hfield] at h
    by_cases hmantissa : UnpackedFloat.unpackMantissa b = 0#52
    · rw [if_pos hmantissa] at h
      cases h
    · rw [if_neg hmantissa] at h
      cases h
  · rcases unpack_cases hones with ⟨s', hu⟩ | ⟨s', m', e', hm', hu, hmantissa, he, hshort⟩
    · cases hu.symm.trans h
    · cases hu.symm.trans h
      exact ⟨hmantissa, by omega, hshort⟩

/-- A finite double has a mantissa of 53 bits and an exponent of at most 971. -/
theorem finite_bounds {s : UnpackedFloat.Sign} {m : Nat} {e : Int} {hm : 0 < m}
    (h : UnpackedFloat.unpack .binary64 b = .finite s m e hm) : m < 2 ^ 53 ∧ e ≤ 971 :=
  ⟨(finite_canonical h).1, (finite_canonical h).2.1⟩

/-- What is packed from fields with an exponent in range is unpacked in range.
-/
theorem within_unpack_components {s : UnpackedFloat.Sign} {field : BitVec 11}
    {mantissa : BitVec 52} (hfield : (field.toNat : Int) ≤ E + 1075) (hlow : -1074 ≤ E)
    (hhigh : E ≤ 971) :
    Within E (UnpackedFloat.unpack .binary64
      (UnpackedFloat.packComponents .binary64 s field mantissa)) := by
  have hne : (UnpackedFloat.unpackExponent
      (UnpackedFloat.packComponents .binary64 s field mantissa)).toNat ≠ 2047 := by
    rw [UnpackedFloat.unpackExponent_packComponents]
    omega
  have hwithin := within_unpack hne
  rw [UnpackedFloat.unpackExponent_packComponents] at hwithin
  exact hwithin.mono (by omega)

/-- Packing keeps a bound on the exponent that is in range. -/
theorem within_unpack_pack {u : UnpackedFloat} (hu : Within E u) (hlow : -1074 ≤ E)
    (hhigh : E ≤ 971) :
    Within E (UnpackedFloat.unpack .binary64 (UnpackedFloat.pack .binary64 u)) := by
  cases u with
  | infinity => exact absurd hu id
  | notANumber => exact absurd hu id
  | zero s =>
      refine within_unpack_components ?_ hlow hhigh
      have hzero : (0 : BitVec 11).toNat = 0 := rfl
      omega
  | finite s m e hm =>
      have he : e ≤ E := hu
      unfold UnpackedFloat.pack
      dsimp only
      rw [exponentBias_binary64]
      split
      · next hoverflow =>
          have hpow : 2 ^ Format.binary64.exponentBits = 2048 := rfl
          omega
      · split
        · refine within_unpack_components ?_ hlow hhigh
          have hmod := Nat.mod_le (e + (1023 : Nat) + (52 : Nat)).toNat (2 ^ 11)
          rw [BitVec.toNat_ofNat]
          omega
        · refine within_unpack_components ?_ hlow hhigh
          have hzero : (0#11).toNat = 0 := rfl
          omega

end Packed

/-! ### Integers as doubles -/

/-- The greatest finite double. -/
def greatest : Nat :=
  (2 ^ 53 - 1) * 2 ^ 971

/-- A power of two as a factor adds its exponent to the logarithm. -/
theorem log2_mul_two_pow {m : Nat} (hm : 0 < m) (k : Nat) : (m * 2 ^ k).log2 = m.log2 + k := by
  induction k with
  | zero => simp
  | succ k ih =>
      have hpos : m * 2 ^ k ≠ 0 := Nat.ne_of_gt (Nat.mul_pos hm (Nat.two_pow_pos k))
      rw [Nat.pow_succ, ← Nat.mul_assoc, Nat.mul_comm, Nat.log2_two_mul hpos, ih, Nat.add_assoc]

/-- What is within range is no infinity. -/
theorem isInf_of_within {E : Int} {x : Float} (h : Within E x.toModel.unpack) :
    x.isInf = false := by
  show x.toModel.unpack.isInf = false
  cases hx : x.toModel.unpack with
  | infinity s =>
      rw [hx] at h
      exact absurd h id
  | notANumber | zero | finite => rfl

/-- A positive number of at most 53 bits is rounded to no more. -/
theorem within_round {m : Nat} (hpos : 0 < m) (hm : m < 2 ^ 53) (s : UnpackedFloat.Sign) :
    Within 1 (UnpackedFloat.round .binary64 s m 0) := by
  have hlog := log2_lt_of_lt (by decide) hm
  have htarget : Format.binary64.targetExponent (totalExponent m 0) =
      max ((m.log2 : Int) + 1 + 0 - 53) (-1074) := rfl
  simp only [UnpackedFloat.round, UnpackedFloat.decreaseExponent, htarget, Nat.shiftLeft_eq]
  refine within_of_total (by omega) ?_ (by decide)
  rw [totalExponent, log2_mul_two_pow hpos]
  omega

/-- One, as it is unpacked. -/
theorem unpack_one : (Float.ofBits 0x3FF0000000000000).toModel.unpack =
    .finite .positive (2 ^ 52) (-52) (by decide) := by
  rfl

/-- An integer of at most 53 bits is multiplied by one. -/
theorem ofNat_of_lt {n : Nat} (hn : n < 2 ^ 53) :
    Float.ofNat n = n.toUInt64.toFloat * Float.ofBits 0x3FF0000000000000 := by
  show Float.ofScientific n false 0 = _
  unfold Float.ofScientific
  rw [dif_pos ⟨hn, by decide⟩]
  rfl

/-- A machine integer below 53 bits is in range as a double. -/
theorem within_toFloat {n : Nat} (hn : n < 2 ^ 53) :
    Within 1 n.toUInt64.toFloat.toModel.unpack := by
  have hsize : n.toUInt64.toNat = n := by
    rw [Nat.toUInt64, UInt64.toNat_ofNat']
    exact Nat.mod_eq_of_lt (Nat.lt_trans hn (by decide))
  refine within_unpack_pack ?_ (by decide) (by decide)
  show Within 1 (UnpackedFloat.normalize .binary64 n.toUInt64.toNat 0 .positive)
  rw [hsize]
  rcases Nat.eq_zero_or_pos n with rfl | hpos
  · trivial
  · have hcompare : compare (n : Int) 0 = .gt := by
      rw [compare_gt_iff_gt]
      omega
    simp only [UnpackedFloat.normalize, hcompare]
    exact within_round hpos hn _

/-- A number below 53 bits is in range as a double. -/
theorem within_ofNat_of_lt {n : Nat} (hn : n < 2 ^ 53) :
    Within 971 (Float.ofNat n).toModel.unpack := by
  have hfactor := within_toFloat hn
  rw [ofNat_of_lt hn]
  refine within_unpack_pack ?_ (by decide) (by decide)
  show Within 971 (UnpackedFloat.mul .binary64 n.toUInt64.toFloat.toModel.unpack
    (Float.ofBits 0x3FF0000000000000).toModel.unpack)
  rw [unpack_one]
  cases hx : n.toUInt64.toFloat.toModel.unpack with
  | infinity s | notANumber =>
      rw [hx] at hfactor
      exact absurd hfactor id
  | zero s => trivial
  | finite s m e hm =>
      rw [hx] at hfactor
      have he : e ≤ 1 := hfactor
      have hlog := log2_lt_of_lt (by decide) (finite_bounds hx).1
      refine within_of_total (by omega) ?_ (by decide)
      rw [totalExponent, log2_mul_two_pow hm]
      omega

/-- A greater integer is rounded from its binary digits. -/
theorem ofScientific_eq {n : Nat} (hn : n ≠ 0) :
    UnpackedFloat.ofScientific .binary64 n 0 =
      UnpackedFloat.roundWithAccuracy .binary64 .positive (n * 2 ^ 53) (-53) .exact := by
  have hpow : (2 : Int) ^ Format.binary64.exponentBits = 2048 := rfl
  unfold UnpackedFloat.ofScientific
  rw [dif_neg hn, hpow, if_neg (by decide), if_neg (by omega), if_pos (by decide)]
  dsimp only [UnpackedFloat.mul]
  rw [Nat.shiftLeft_eq, Int.toNat_zero, Nat.pow_zero, Nat.mul_one]
  rfl

/-- A longer number is made a double as a decimal. -/
theorem toModel_ofNat_of_le {n : Nat} (hn : 2 ^ 53 ≤ n) :
    (Float.ofNat n).toModel = Float.Model.ofScientific n 0 := by
  show (Float.ofScientific n false 0).toModel = _
  unfold Float.ofScientific
  rw [dif_neg (by omega)]
  rfl

/-- Even one above the greatest double lies below the middle to the next power
of two. -/
theorem greatest_lt : greatest + 1 < 2 ^ 970 * (2 ^ 54 - 1) := by
  have hone : 1 < 2 ^ 970 := one_lt_pow₀ one_lt_two (by decide)
  have hpow : (2 : Nat) ^ 971 = 2 ^ 970 * 2 := by rw [← pow_succ]
  rw [greatest, hpow]
  generalize 2 ^ 970 = B at hone
  omega

/-- The greatest double has more than 53 bits. -/
theorem two_pow_le_greatest : 2 ^ 53 ≤ greatest := by
  have hone : 1 < 2 ^ 971 := one_lt_pow₀ one_lt_two (by decide)
  rw [greatest]
  generalize 2 ^ 971 = B at hone
  omega

/-- In the highest binade the bit that decides on rounding is not set where the
mantissa is the greatest, so the mantissa stays in range. -/
theorem rounded_top {n : Nat} (hlog : n.log2 = 1023) (hn : n ≤ greatest + 1) :
    rounded .exact (n * 2 ^ 53) (-53) < 2 ^ 53 := by
  have hpos : 0 < n := by
    rcases Nat.eq_zero_or_pos n with rfl | hpos
    · exact absurd hlog (by simp)
    · exact hpos
  have hshift : shift (n * 2 ^ 53) (-53) = 1023 + 1 := by
    rw [shift, totalExponent, log2_mul_two_pow hpos, hlog]
    rfl
  have hquotient : n * 2 ^ 53 / 2 ^ 1023 = n / 2 ^ 970 := by
    rw [show (2 : Nat) ^ 1023 = 2 ^ 970 * 2 ^ 53 from by rw [← Nat.pow_add]]
    exact Nat.mul_div_mul_right _ _ (Nat.two_pow_pos 53)
  have hlt : n / 2 ^ 970 < 2 ^ 54 - 1 :=
    Nat.div_lt_of_lt_mul (Nat.lt_of_le_of_lt hn greatest_lt)
  have hmantissa : (exactly (n * 2 ^ 53) >>> (1023 + 1)).mantissa = n / 2 ^ 970 / 2 := by
    have hpow : (2 : Nat) ^ (1023 + 1) = 2 ^ 1023 * 2 := pow_succ 2 1023
    rw [mantissa_shiftRight, hpow, ← Nat.div_div_eq_div_mul]
    exact congrArg (· / 2) hquotient
  have hbit : (exactly (n * 2 ^ 53) >>> (1023 + 1)).roundBit = (n / 2 ^ 970 % 2 != 0) := by
    rw [roundBit_shiftRight]
    exact congrArg (· % 2 != 0) hquotient
  rw [rounded_exact, hshift]
  by_cases heven : n / 2 ^ 970 % 2 = 0
  · rw [roundedMantissa_eq (by rw [hbit, heven]; rfl), hmantissa]
    omega
  · have hle := roundedMantissa_le (exactly (n * 2 ^ 53) >>> (1023 + 1))
    rw [hmantissa] at hle
    omega

/-- A longer number, up to one above the greatest double, is in range. -/
theorem within_ofNat_of_le {n : Nat} (hlow : 2 ^ 53 ≤ n) (hn : n ≤ greatest + 1) :
    Within 971 (Float.ofNat n).toModel.unpack := by
  have hpos : 0 < n := Nat.lt_of_lt_of_le (by decide) hlow
  have htotal : totalExponent (n * 2 ^ 53) (-53) = n.log2 + 1 := by
    rw [totalExponent, log2_mul_two_pow hpos]
    omega
  have hlog : n.log2 < 1024 := by
    refine log2_lt_of_lt (by decide) (Nat.lt_of_le_of_lt hn (Nat.lt_of_lt_of_le greatest_lt ?_))
    rw [show (2 : Nat) ^ 1024 = 2 ^ 970 * 2 ^ 54 from by rw [← Nat.pow_add]]
    exact Nat.mul_le_mul_left _ (by decide)
  rw [toModel_ofNat_of_le hlow]
  refine within_unpack_pack ?_ (by decide) (by decide)
  rw [ofScientific_eq (Nat.ne_of_gt hpos)]
  by_cases htop : n.log2 = 1023
  · exact within_of_rounded_lt (by decide) (by omega) (rounded_top htop hn) (by decide)
  · exact within_of_total (by decide) (by omega) (by decide)

/-- A number within the range becomes a double in range. -/
theorem within_ofNat {n : Nat} (hn : n ≤ greatest + 1) :
    Within 971 (Float.ofNat n).toModel.unpack := by
  rcases Nat.lt_or_ge n (2 ^ 53) with hlow | hlow
  · exact within_ofNat_of_lt hlow
  · exact within_ofNat_of_le hlow hn

/-- **An integer within the range becomes a double.** -/
theorem ofInteger?_eq {n : Int} (hn : n.natAbs ≤ greatest + 1) :
    ofInteger? n = some (Float.ofInt n) := by
  have hfinite : (Float.ofInt n).isInf = false := by
    cases n with
    | ofNat n => exact isInf_of_within (within_ofNat hn)
    | negSucc n =>
        have hwithin : Within 971 (Float.ofNat (n + 1)).toModel.unpack := within_ofNat hn
        refine isInf_of_within (within_unpack_pack (E := 971) ?_ (by decide) (by decide))
        cases hx : (Float.ofNat (n + 1)).toModel.unpack with
        | infinity s | notANumber =>
            rw [hx] at hwithin
            exact absurd hwithin id
        | zero s => trivial
        | finite s m e hm =>
            rw [hx] at hwithin
            exact hwithin
  simp [ofInteger?, hfinite]

/-! ### The floor -/

/-- A sign leaves the magnitude. -/
theorem natAbs_withSign (negative : Bool) (n : Nat) : (withSign negative n).natAbs = n := by
  cases negative <;> simp [withSign]

/-- The mantissa and the exponent of a finite double are in range. -/
theorem parts_bounds {x : Float} {negative : Bool} {m : Nat} {e : Int}
    (h : parts? x = some (negative, m, e)) : m < 2 ^ 53 ∧ e ≤ 971 := by
  unfold parts? at h
  cases hx : x.toModel.unpack with
  | infinity s | notANumber =>
      rw [hx] at h
      cases h
  | zero s =>
      rw [hx] at h
      cases h
      decide
  | finite s m' e' hm =>
      rw [hx] at h
      cases h
      exact finite_bounds hx

/-- The floor of a double is within the range of doubles. -/
theorem natAbs_floor_le {x : Float} {n : Int} (h : floor? x = some n) : n.natAbs ≤ greatest := by
  obtain ⟨⟨negative, m, e⟩, hparts, rfl⟩ := Option.map_eq_some_iff.mp h
  obtain ⟨hm, he⟩ := parts_bounds hparts
  by_cases hpos : 0 ≤ e
  · have hshifted : m * 2 ^ e.toNat ≤ greatest :=
      Nat.mul_le_mul (by omega) (pow_le_pow_right₀ one_le_two (by omega))
    simp only [hpos, if_true, natAbs_withSign, Nat.shiftLeft_eq]
    exact hshifted
  · have hquotient := Int.natAbs_ediv_le_natAbs (withSign negative m) (Nat.pow 2 (-e).toNat)
    rw [natAbs_withSign] at hquotient
    simp only [hpos, if_false]
    exact Nat.le_trans hquotient (Nat.le_trans (Nat.le_of_lt hm) two_pow_le_greatest)

/-- What has a floor is a number. -/
theorem isNaN_of_floor {x : Float} {n : Int} (h : floor? x = some n) : x.isNaN = false := by
  obtain ⟨parts, hparts, -⟩ := Option.map_eq_some_iff.mp h
  show x.toModel.unpack.isNaN = false
  unfold parts? at hparts
  cases hx : x.toModel.unpack with
  | notANumber =>
      rw [hx] at hparts
      cases hparts
  | infinity | zero | finite => rfl

end Reckon.Double

namespace Reckon

open Double

/-- **The integer to which a double is rounded is in the range of doubles**, and
it is the rounded double. -/
theorem ofInteger?_of_floor? {x : Float} {n : Int} (h : floor? x = some n) :
    ofInteger? (if 0.5 ≤ x - Float.ofInt n then n + 1 else n) = some (roundHalfUp x) := by
  have hfloor := natAbs_floor_le h
  have hrounded : (if 0.5 ≤ x - Float.ofInt n then n + 1 else n).natAbs ≤ greatest + 1 := by
    split <;> omega
  rw [ofInteger?_eq hrounded, roundHalfUp, isNaN_of_floor h, h]
  rfl

end Reckon
