import Reckon.Double.Places
import Reckon.Proofs.Range
/-!
# Rounding to decimal places stays in range

A double is rounded to a multiple of `10^-places`, and the double nearest to that
multiple is the answer.  With no or more places the answer never leaves the range
of doubles (`isSome_roundToPlaces?`).

A double without a fraction is its own nearest multiple; its mantissa divides out
of the decimal without residue, so nothing is rounded up (`Whole.within_div`).  A
double with a fraction is small, and dividing keeps it so (`within_div`).
-/

namespace Reckon.Double

open Float.Model

/-! ### Quotients -/

/-- A quotient has at least as many bits less as the divisor has more than one. -/
theorem log2_div_le {a b : Nat} (hb : b ≠ 0) (hq : a / b ≠ 0) :
    (a / b).log2 + b.log2 ≤ a.log2 := by
  have ha : a ≠ 0 := by
    rintro rfl
    exact hq (Nat.zero_div b)
  apply (Nat.le_log2 ha).mpr
  calc 2 ^ ((a / b).log2 + b.log2) = 2 ^ (a / b).log2 * 2 ^ b.log2 := Nat.pow_add 2 _ _
    _ ≤ a / b * b := Nat.mul_le_mul (Nat.log2_self_le hq) (Nat.log2_self_le hb)
    _ ≤ a := Nat.div_mul_le_self a b

/-- The place of the last bit of a quotient. -/
def place (m₁ : Nat) (e₁ : Int) (m₂ : Nat) (e₂ : Int) : Int :=
  min (e₁ - e₂) (max (totalExponent m₁ e₁ - totalExponent m₂ e₂ - 53) (-1074))

/-- Of two finite numbers the first is shifted so far that the quotient has all
bits down to its place, and the quotient is rounded. -/
theorem div_finite {s₁ s₂ : UnpackedFloat.Sign} {m₁ m₂ : Nat} {e₁ e₂ : Int} (h₁ : 0 < m₁)
    (h₂ : 0 < m₂) :
    UnpackedFloat.div .binary64 (.finite s₁ m₁ e₁ h₁) (.finite s₂ m₂ e₂ h₂) =
      UnpackedFloat.roundWithAccuracy .binary64 (s₁ / s₂)
        (m₁ <<< (e₁ - e₂ - place m₁ e₁ m₂ e₂).toNat / m₂) (place m₁ e₁ m₂ e₂)
        (UnpackedFloat.accuracyOfFraction (m₁ <<< (e₁ - e₂ - place m₁ e₁ m₂ e₂).toNat % m₂) m₂) :=
  rfl

/-- A quotient that is small enough is rounded into the range. -/
theorem within_div {E : Int} {s₁ s₂ : UnpackedFloat.Sign} {m₁ m₂ : Nat} {e₁ e₂ : Int}
    (h₁ : 0 < m₁) (h₂ : 0 < m₂) (htotal : totalExponent m₁ e₁ - totalExponent m₂ e₂ ≤ E + 51)
    (hE : -1073 ≤ E) :
    Within E (UnpackedFloat.div .binary64 (.finite s₁ m₁ e₁ h₁) (.finite s₂ m₂ e₂ h₂)) := by
  have hplace : place m₁ e₁ m₂ e₂ =
      min (e₁ - e₂) (max (totalExponent m₁ e₁ - totalExponent m₂ e₂ - 53) (-1074)) := rfl
  rw [div_finite]
  generalize place m₁ e₁ m₂ e₂ = e at hplace
  have hle : e ≤ E := by omega
  refine within_of_total hle ?_ hE
  rw [Nat.shiftLeft_eq]
  by_cases hq : m₁ * 2 ^ (e₁ - e₂ - e).toNat / m₂ = 0
  · rw [hq]
    simp only [totalExponent, Nat.log2_zero]
    omega
  · have hlog := log2_div_le (Nat.ne_of_gt h₂) hq
    rw [log2_mul_two_pow h₁] at hlog
    simp only [totalExponent] at htotal ⊢
    omega

/-! ### Mantissas without residue -/

/-- A mantissa that is shifted without residue is not rounded. -/
theorem rounded_of_dvd {m : Nat} {e : Int} (h : 2 ^ shift m e ∣ m) :
    rounded .exact m e = m / 2 ^ shift m e := by
  cases hshift : shift m e with
  | zero => rw [rounded_of_shift_eq_zero hshift, Nat.pow_zero, Nat.div_one]
  | succ k =>
      obtain ⟨q, hq⟩ := h
      have hm : m = 2 ^ k * (2 * q) := by
        rw [hq, hshift, pow_succ, Nat.mul_assoc]
      have hbit : (exactly m >>> (k + 1)).roundBit = false := by
        rw [roundBit_shiftRight]
        show (m / 2 ^ k % 2 != 0) = false
        rw [hm, Nat.mul_div_cancel_left _ (Nat.two_pow_pos k), Nat.mul_mod_right]
        rfl
      rw [rounded_exact, hshift, roundedMantissa_eq hbit, mantissa_shiftRight]
      rfl

/-- A whole number with a mantissa of at most 53 bits. -/
structure Whole (n : Nat) : Prop where
  intro ::
  exists_mantissa : ∃ m k : Nat, m < 2 ^ 53 ∧ k ≤ 971 ∧ n = m * 2 ^ k

namespace Whole

variable {n : Nat}

theorem le_greatest (h : Whole n) : n ≤ greatest := by
  obtain ⟨m, k, hm, hk, rfl⟩ := h.exists_mantissa
  exact Nat.mul_le_mul (by omega) (pow_le_pow_right₀ one_le_two hk)

theorem log2_lt (h : Whole n) : n.log2 < 1024 := by
  obtain ⟨m, k, hm, hk, rfl⟩ := h.exists_mantissa
  have hlt : m * 2 ^ k < 2 ^ (53 + k) := by
    rw [Nat.pow_add]
    exact Nat.mul_lt_mul_of_pos_right hm (Nat.two_pow_pos k)
  have hlog := log2_lt_of_lt (by omega) hlt
  omega

/-- Its places beyond the 53rd are empty. -/
theorem dvd (h : Whole n) (hn : 0 < n) (k : Nat) :
    2 ^ shift (n * 2 ^ k) (-k) ∣ n * 2 ^ k := by
  obtain ⟨m, e, hm, he, rfl⟩ := h.exists_mantissa
  have hpos : 0 < m := Nat.pos_of_ne_zero fun hzero => by simp [hzero] at hn
  have hlog := log2_lt_of_lt (by decide) hm
  have hshift : shift (m * 2 ^ e * 2 ^ k) (-k) ≤ e + k := by
    simp only [shift, totalExponent]
    rw [log2_mul_two_pow hn, log2_mul_two_pow hpos]
    omega
  rw [Nat.mul_assoc, ← pow_add]
  rw [Nat.mul_assoc, ← pow_add] at hshift
  exact Dvd.dvd.mul_left (pow_dvd_pow 2 hshift) m

/-- A quotient that is such a number is found without rounding. -/
theorem within_div (h : Whole n) (hn : 0 < n) {d : Nat} (hd : 0 < d)
    {s₁ s₂ : UnpackedFloat.Sign} (hnd : 0 < n * d) :
    Within 971 (UnpackedFloat.div .binary64 (.finite s₁ (n * d) 0 hnd) (.finite s₂ d 0 hd)) := by
  have hplace : place (n * d) 0 d 0 ≤ 0 := by
    unfold place
    omega
  rw [div_finite]
  generalize place (n * d) 0 d 0 = e at hplace
  generalize hk : ((0 : Int) - 0 - e).toNat = k
  have hplace' : e = -k := by omega
  have hproduct : (n * d) <<< k = n * 2 ^ k * d := by
    rw [Nat.shiftLeft_eq, Nat.mul_right_comm]
  have hexact : UnpackedFloat.accuracyOfFraction (n * 2 ^ k * d % d) d = .exact := by
    rw [Nat.mul_mod_left]
    rfl
  have hlog := h.log2_lt
  rw [hproduct, Nat.mul_div_cancel _ hd, hexact, hplace']
  refine within_of_rounded_lt (by omega) ?_ ?_ (by decide)
  · rw [totalExponent, log2_mul_two_pow hn]
    omega
  · rw [rounded_of_dvd (h.dvd hn k)]
    exact div_shift_lt _ _

end Whole

/-! ### Decimals -/

/-- Every power of ten that is a double is at least one. -/
theorem unpack_powerOfTen (p : Fin 23) : ∃ m e hm,
    (Float.exactlyRepresentablePowersOfTen[p]).toModel.unpack = .finite .positive m e hm ∧
      1 ≤ totalExponent m e := by
  have hall : ∀ p : Fin 23,
      (match (Float.exactlyRepresentablePowersOfTen[p]).toModel.unpack with
        | .finite .positive m e _ => decide (1 ≤ totalExponent m e)
        | _ => false) = true := by decide
  have hp := hall p
  cases hunpack : (Float.exactlyRepresentablePowersOfTen[p]).toModel.unpack with
  | infinity | notANumber | zero =>
      rw [hunpack] at hp
      cases hp
  | finite s m e hm =>
      rw [hunpack] at hp
      cases s with
      | positive => exact ⟨m, e, hm, rfl, of_decide_eq_true hp⟩
      | negative => cases hp

/-- A decimal with few digits is a quotient of two doubles. -/
theorem within_ofScientific_of_lt {n p : Nat} (hn : n < 2 ^ 53) (hp : p ≤ 22) :
    Within 971 (Float.ofScientific n true p).toModel.unpack := by
  have hquotient : Float.ofScientific n true p =
      n.toUInt64.toFloat / Float.exactlyRepresentablePowersOfTen[(⟨p, by omega⟩ : Fin 23)] := by
    unfold Float.ofScientific
    rw [dif_pos ⟨hn, hp⟩]
    rfl
  obtain ⟨m₂, e₂, h₂, hpower, htotal⟩ := unpack_powerOfTen ⟨p, by omega⟩
  have hwithin := within_toFloat hn
  rw [hquotient]
  refine within_unpack_pack ?_ (by decide) (by decide)
  show Within 971 (UnpackedFloat.div .binary64 n.toUInt64.toFloat.toModel.unpack
    (Float.exactlyRepresentablePowersOfTen[(⟨p, by omega⟩ : Fin 23)]).toModel.unpack)
  rw [hpower]
  cases hx : n.toUInt64.toFloat.toModel.unpack with
  | infinity s | notANumber =>
      rw [hx] at hwithin
      exact absurd hwithin id
  | zero s => trivial
  | finite s m e hm =>
      rw [hx] at hwithin
      have he : e ≤ 1 := hwithin
      have hlog := log2_lt_of_lt (by decide) (finite_bounds hx).1
      refine within_div hm h₂ ?_ (by decide)
      simp only [totalExponent] at htotal ⊢
      omega

/-- Any other decimal is divided as it is written. -/
theorem toModel_ofScientific {n p : Nat} (h : ¬ (n < 2 ^ 53 ∧ p ≤ 22)) :
    (Float.ofScientific n true p).toModel = Float.Model.ofScientific n (-p) := by
  have hneg : Int.negOfNat p = -p := by
    cases p <;> rfl
  unfold Float.ofScientific
  rw [dif_neg h, ← hneg]
  rfl

theorem finite_eq {s : UnpackedFloat.Sign} {m m' : Nat} {e : Int} (hm : 0 < m) (h : m = m') :
    UnpackedFloat.finite s m e hm = .finite s m' e (h ▸ hm) := by
  subst h
  rfl

/-- A decimal is a quotient by a power of ten. -/
theorem within_ofScientific {n p : Nat} (hp : 0 < p) (hrange : p ≤ 323)
    (h : ∀ hn : 0 < n, Within 971 (UnpackedFloat.div .binary64 (.finite .positive n 0 hn)
      (.finite .positive (10 ^ p) 0 (Nat.pow_pos (by decide))))) :
    Within 971 (UnpackedFloat.ofScientific .binary64 n (-p)) := by
  have hpow : (2 : Int) ^ Format.binary64.exponentBits = 2048 := rfl
  have hten : 10 ^ (- -(p : Int)).toNat = 10 ^ p := by
    congr 1
    omega
  unfold UnpackedFloat.ofScientific
  by_cases hn : n = 0
  · rw [dif_pos hn]
    trivial
  · rw [dif_neg hn, hpow, if_neg (by omega), if_neg (by omega), if_neg (by omega)]
    rw [finite_eq _ hten]
    exact h (Nat.pos_of_ne_zero hn)

/-- A decimal stays in range if it is a whole number that does, or small. -/
theorem isInf_ofScientific {n p : Nat} (hp : p ≤ 323)
    (h : (∃ k, Whole k ∧ n = k * 10 ^ p) ∨ n ≤ 2 ^ 53 * 10 ^ p) :
    (Float.ofScientific n true p).isInf = false := by
  have hten : 0 < 10 ^ p := Nat.pow_pos (by decide)
  apply isInf_of_within (E := 971)
  by_cases hfew : n < 2 ^ 53 ∧ p ≤ 22
  · exact within_ofScientific_of_lt hfew.1 hfew.2
  · rw [toModel_ofScientific hfew]
    rcases Nat.eq_zero_or_pos p with rfl | hpos
    · have hle : n ≤ greatest + 1 := by
        rcases h with ⟨k, hk, rfl⟩ | h
        · have hk := hk.le_greatest
          omega
        · have hgreatest := two_pow_le_greatest
          omega
      have hbig : 2 ^ 53 ≤ n := by omega
      have hwithin := within_ofNat_of_le hbig hle
      rwa [toModel_ofNat_of_le hbig] at hwithin
    · refine within_unpack_pack (within_ofScientific hpos hp fun hn => ?_) (by decide) (by decide)
      rcases h with ⟨k, hk, rfl⟩ | h
      · exact hk.within_div (Nat.pos_of_mul_pos_right hn) hten hn
      · refine within_div hn hten ?_ (by decide)
        have hlt : n < 2 ^ (53 + ((10 ^ p).log2 + 1)) := by
          rw [Nat.pow_add]
          exact Nat.lt_of_le_of_lt h
            (Nat.mul_lt_mul_of_pos_left Nat.lt_log2_self (Nat.two_pow_pos 53))
        have hlog := log2_lt_of_lt (by omega) hlt
        simp only [totalExponent]
        omega

/-! ### Rounding -/

theorem roundDiv_one (n : Nat) : roundDiv n 1 = n := by
  simp only [roundDiv, Nat.mod_one, Nat.div_one]
  rfl

theorem roundDiv_le (num den : Nat) : roundDiv num den ≤ num / den + 1 := by
  simp only [roundDiv]
  split
  · omega
  · omega
  · have hmod := Nat.mod_lt (num / den) two_pos
    omega

/-- The multiple nearest to a double is the double itself, or small. -/
theorem nearestMultiple_cases {m : Nat} {e places : Int} (hm : m < 2 ^ 53) (he : e ≤ 971)
    (hplaces : 0 ≤ places) :
    (∃ k, Whole k ∧ nearestMultiple m e places = k * 10 ^ places.toNat) ∨
      nearestMultiple m e places ≤ 2 ^ 53 * 10 ^ places.toNat := by
  have hplaces' : (-places).toNat = 0 := by omega
  simp only [nearestMultiple, hplaces']
  by_cases hpos : 0 ≤ e
  · left
    have he' : (-e).toNat = 0 := by omega
    refine ⟨m * 2 ^ e.toNat, ⟨m, e.toNat, hm, by omega, rfl⟩, ?_⟩
    rw [he']
    exact roundDiv_one _
  · right
    have he' : e.toNat = 0 := by omega
    have hten : 0 < 10 ^ places.toNat := Nat.pow_pos (by decide)
    have hden : 0 < 2 ^ (-e).toNat * 10 ^ 0 := Nat.mul_pos (Nat.two_pow_pos _) (by decide)
    have hle := roundDiv_le (m * 2 ^ 0 * 10 ^ places.toNat) (2 ^ (-e).toNat * 10 ^ 0)
    have hquotient := Nat.div_le_self (m * 2 ^ 0 * 10 ^ places.toNat) (2 ^ (-e).toNat * 10 ^ 0)
    rw [he']
    calc roundDiv (m * 2 ^ 0 * 10 ^ places.toNat) (2 ^ (-e).toNat * 10 ^ 0)
        ≤ m * 2 ^ 0 * 10 ^ places.toNat + 1 := Nat.le_trans hle (Nat.succ_le_succ hquotient)
      _ ≤ m * 10 ^ places.toNat + 10 ^ places.toNat := by
        rw [Nat.pow_zero, Nat.mul_one]
        omega
      _ = (m + 1) * 10 ^ places.toNat := (Nat.succ_mul m _).symm
      _ ≤ 2 ^ 53 * 10 ^ places.toNat := Nat.mul_le_mul_right _ hm

/-- **Rounding to decimal places stays in range.** -/
theorem isSome_roundToPlaces? (x : Float) {places : Int} (h : 0 ≤ places) :
    (roundToPlaces? x places).isSome := by
  unfold roundToPlaces?
  cases hparts : parts? x with
  | none => rfl
  | some parts =>
      obtain ⟨negative, m, e⟩ := parts
      obtain ⟨hm, he⟩ := parts_bounds hparts
      by_cases hmany : 323 < places
      · simp [hmany]
      · have hfew : ¬ places < -308 := by omega
        have hfinite : (ofUnits (nearestMultiple m e places) places).isInf = false := by
          rw [ofUnits, if_pos h]
          exact isInf_ofScientific (by omega) (nearestMultiple_cases hm he h)
        simp [hmany, hfew, hfinite]

end Reckon.Double
