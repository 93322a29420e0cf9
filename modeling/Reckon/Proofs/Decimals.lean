import Reckon.Double.Numeral
import Reckon.Double.Spelling
import Reckon.Proofs.ShortestDecimal
/-!
# Decimals that are read

A decimal with some places is read as a quotient: of two doubles, if the digits and
the power of ten both are doubles, and else of two integers.  In either case the
quotient is computed to so many bits that it is rounded as the fraction it stands
for (`div_of_holds`).  So a decimal that lies in the rounding interval of a double
is read as that double (`unpack_ofScientific`).
-/

namespace Reckon.Double

open Float.Model

/-! ### Quotients -/

section Quotient

variable {m₁ m₂ : Nat} {e₁ e₂ : Int}

/-- Above the least place a quotient is computed to 53 bits or more. -/
theorem two_pow_le_quotient (e₁ e₂ : Int) (h₁ : 0 < m₁) (h₂ : 0 < m₂)
    (hplace : -1074 < place m₁ e₁ m₂ e₂) :
    2 ^ 52 ≤ m₁ <<< (e₁ - e₂ - place m₁ e₁ m₂ e₂).toNat / m₂ := by
  have hle : place m₁ e₁ m₂ e₂ ≤ e₁ - e₂ := min_le_left _ _
  have hbits : 52 + (m₂.log2 + 1) ≤ m₁.log2 + (e₁ - e₂ - place m₁ e₁ m₂ e₂).toNat := by
    have hmax : place m₁ e₁ m₂ e₂ ≤
        max (totalExponent m₁ e₁ - totalExponent m₂ e₂ - 53) (-1074) := min_le_right _ _
    simp only [totalExponent] at hmax
    omega
  generalize (e₁ - e₂ - place m₁ e₁ m₂ e₂).toNat = k at *
  rw [Nat.le_div_iff_mul_le h₂, Nat.shiftLeft_eq]
  calc 2 ^ 52 * m₂ ≤ 2 ^ 52 * 2 ^ (m₂.log2 + 1) :=
        Nat.mul_le_mul_left _ (Nat.le_of_lt Nat.lt_log2_self)
    _ = 2 ^ (52 + (m₂.log2 + 1)) := (Nat.pow_add 2 _ _).symm
    _ ≤ 2 ^ (m₁.log2 + k) := Nat.pow_le_pow_right (by decide) hbits
    _ = 2 ^ m₁.log2 * 2 ^ k := Nat.pow_add 2 _ _
    _ ≤ m₁ * 2 ^ k := Nat.mul_le_mul_right _ (Nat.log2_self_le (Nat.ne_of_gt h₁))

/-- A quotient that lies in the interval of a double is rounded to it. -/
theorem div_of_holds {m : Nat} {e : Int} {s₁ s₂ : UnpackedFloat.Sign} (h₁ : 0 < m₁) (h₂ : 0 < m₂)
    (h : Canonical m e) (hv : (Interval.of m e).Holds (m₁ * 2 ^ e₁ / (m₂ * 2 ^ e₂))) :
    UnpackedFloat.div .binary64 (.finite s₁ m₁ e₁ h₁) (.finite s₂ m₂ e₂ h₂) =
      .finite (s₁ / s₂) m e h.pos := by
  have hquotient := two_pow_le_quotient e₁ e₂ h₁ h₂
  have hle : place m₁ e₁ m₂ e₂ ≤ e₁ - e₂ := min_le_left _ _
  rw [div_finite]
  generalize place m₁ e₁ m₂ e₂ = e₀ at *
  have hvalue : ((m₁ <<< (e₁ - e₂ - e₀).toNat : Nat) / m₂ * 2 ^ e₀ : ℚ) =
      m₁ * 2 ^ e₁ / (m₂ * 2 ^ e₂) := by
    have hpow : (2 : ℚ) ^ (e₁ - e₂ - e₀).toNat = 2 ^ e₁ / 2 ^ e₂ / 2 ^ e₀ := by
      rw [← zpow_natCast, Int.toNat_of_nonneg (by omega), zpow_sub₀ two_ne_zero,
        zpow_sub₀ two_ne_zero]
    rw [Nat.shiftLeft_eq]
    push_cast
    rw [hpow]
    field_simp
  refine roundWithAccuracy_of_holds h _ h₂ ?_ (hvalue ▸ hv)
  rcases lt_or_ge (-1074) e₀ with hfar | hnear
  · have hlong := hquotient hfar
    generalize m₁ <<< (e₁ - e₂ - e₀).toNat / m₂ = q at *
    have hlog : 52 ≤ q.log2 := (Nat.le_log2 (by omega)).mpr hlong
    rw [totalExponent]
    omega
  · omega

end Quotient

/-! ### Decimals -/

/-- The powers of ten that are doubles. -/
theorem unpack_powersOfTen (p : Fin 23) : ∃ m e hm,
    (Float.exactlyRepresentablePowersOfTen[p]).toModel.unpack = .finite .positive m e hm ∧
      (m * 2 ^ e : ℚ) = 10 ^ (p : Nat) := by
  have hall : ∀ p : Fin 23,
      (match (Float.exactlyRepresentablePowersOfTen[p]).toModel.unpack with
        | .finite .positive m e _ =>
          decide (m * 2 ^ e.toNat = 10 ^ (p : Nat) * 2 ^ (-e).toNat)
        | _ => false) = true := by decide
  have hp := hall p
  cases hunpack : (Float.exactlyRepresentablePowersOfTen[p]).toModel.unpack with
  | infinity | notANumber | zero =>
      rw [hunpack] at hp
      cases hp
  | finite s m e hm =>
      rw [hunpack] at hp
      cases s with
      | positive =>
          refine ⟨m, e, hm, rfl, ?_⟩
          have hsame : m * 2 ^ e.toNat = 10 ^ (p : Nat) * 2 ^ (-e).toNat := of_decide_eq_true hp
          have hcast : (m * 2 ^ e.toNat : ℚ) = 10 ^ (p : Nat) * 2 ^ (-e).toNat := by
            exact_mod_cast hsame
          have hpow := toNat_zpow (a := 2) (by decide) e
          push_cast at hpow
          rw [← hpow, ← mul_div_assoc, hcast, mul_div_cancel_right₀ _ (by positivity)]
      | negative => cases hp

/-- A decimal with some places is a quotient by a power of ten. -/
theorem ofScientific_neg {n p : Nat} (hp : 0 < p) (hrange : p ≤ 2048) (hpos : 0 < n) :
    UnpackedFloat.ofScientific .binary64 n (-p) =
      UnpackedFloat.div .binary64 (.finite .positive n 0 hpos)
        (.finite .positive (10 ^ p) 0 (Nat.pow_pos (by decide))) := by
  have hpow : (2 : Int) ^ Format.binary64.exponentBits = 2048 := rfl
  have hten : 10 ^ (- -(p : Int)).toNat = 10 ^ p := by
    congr 1
    omega
  unfold UnpackedFloat.ofScientific
  rw [dif_neg (Nat.ne_of_gt hpos), hpow, if_neg (by omega), if_neg (by omega), if_neg (by omega)]
  rw [finite_eq _ hten]

section Read

variable {m : Nat} {e : Int} {n p : Nat}

/-- Few digits and places: a quotient of doubles. -/
theorem unpack_ofScientific_of_few (h : Canonical m e) (hpos : 0 < n)
    (hfew : n < 2 ^ 53 ∧ p ≤ 22) (hv : (Interval.of m e).Holds (n / 10 ^ p)) :
    (Float.ofScientific n true p).toModel.unpack = .finite .positive m e h.pos := by
  have hquotient : Float.ofScientific n true p =
      n.toUInt64.toFloat / Float.exactlyRepresentablePowersOfTen[(⟨p, by omega⟩ : Fin 23)] := by
    unfold Float.ofScientific
    rw [dif_pos hfew]
    rfl
  obtain ⟨m₁, e₁, hcanonical, hnumber⟩ := exists_canonical (E := 0) hpos hfew.1 (by decide)
    (by decide)
  rw [zpow_zero, mul_one] at hnumber
  obtain ⟨m₂, e₂, h₂, hpower, hten⟩ := unpack_powersOfTen ⟨p, by omega⟩
  have hdiv : UnpackedFloat.div .binary64 (.finite .positive m₁ e₁ hcanonical.pos)
      (.finite .positive m₂ e₂ h₂) = .finite .positive m e h.pos :=
    div_of_holds hcanonical.pos h₂ h (by rwa [hnumber, hten])
  rw [hquotient]
  show UnpackedFloat.unpack .binary64 (UnpackedFloat.pack .binary64
    (UnpackedFloat.div .binary64 n.toUInt64.toFloat.toModel.unpack
      (Float.exactlyRepresentablePowersOfTen[(⟨p, by omega⟩ : Fin 23)]).toModel.unpack)) = _
  rw [unpack_toFloat hfew.1 hcanonical hnumber, hpower, hdiv]
  exact unpack_pack .positive h

/-- More of them: a quotient of integers. -/
theorem unpack_ofScientific_of_many (h : Canonical m e) (hpos : 0 < n)
    (hmany : ¬ (n < 2 ^ 53 ∧ p ≤ 22)) (hp : 0 < p) (hrange : p ≤ 2048)
    (hv : (Interval.of m e).Holds (n / 10 ^ p)) :
    (Float.ofScientific n true p).toModel.unpack = .finite .positive m e h.pos := by
  have hten : 0 < 10 ^ p := Nat.pow_pos (by decide)
  have hdiv : UnpackedFloat.div .binary64 (.finite .positive n 0 hpos)
      (.finite .positive (10 ^ p) 0 hten) = .finite .positive m e h.pos := by
    refine div_of_holds hpos hten h ?_
    rw [zpow_zero, mul_one, mul_one, Nat.cast_pow]
    exact_mod_cast hv
  have hdecimal : UnpackedFloat.ofScientific .binary64 n (-p) = .finite .positive m e h.pos := by
    rw [ofScientific_neg hp hrange hpos]
    exact hdiv
  rw [toModel_ofScientific hmany]
  show UnpackedFloat.unpack .binary64 (UnpackedFloat.pack .binary64
    (UnpackedFloat.ofScientific .binary64 n (-p))) = _
  rw [hdecimal]
  exact unpack_pack .positive h

/-- **A decimal that lies in the interval of a double is read as it.** -/
theorem unpack_ofScientific (h : Canonical m e) (hp : 0 < p) (hrange : p ≤ 2048)
    (hv : (Interval.of m e).Holds (n / 10 ^ p)) :
    (Float.ofScientific n true p).toModel.unpack = .finite .positive m e h.pos := by
  have hpos : 0 < n := by
    refine Nat.pos_of_ne_zero fun hzero => ?_
    subst hzero
    have hnone := normalize_of_holds (M := 0) (E := 0) .positive h (by simpa using hv)
    cases hnone
  by_cases hfew : n < 2 ^ 53 ∧ p ≤ 22
  · exact unpack_ofScientific_of_few h hpos hfew hv
  · exact unpack_ofScientific_of_many h hpos hfew hp hrange hv

end Read

end Reckon.Double
