import Reckon.Proofs.Rounding
/-!
# The numbers that doubles denote

A finite double denotes a rational number (`value?`).  A number of at most 53 bits
within the range of exponents has canonical parts (`exists_canonical`), and as it
lies in the rounding interval of those it survives every operation that rounds: a
mantissa and an exponent are rounded to the double they are
(`roundWithAccuracy_exact`, `round_of_holds`), and a whole number is converted as
it is (`denotes_ofInt`).
-/

namespace Reckon.Double

open Float.Model

/-! ### Canonical parts of a number -/

section Canonical

variable {m : Nat} {e : Int}

theorem Canonical.ge (h : Canonical m e) : -1074 ≤ e := by
  have hlong := h.long
  omega

/-- A double lies in its own rounding interval. -/
theorem Canonical.holds (h : Canonical m e) : (Interval.of m e).Holds (m * 2 ^ e) := by
  have hlow : ((Interval.of m e).low : ℚ) < 4 * m := by
    by_cases hedge : m = 2 ^ 52 ∧ e ≠ -1074
    · rw [Interval.low_edge hedge.1 hedge.2]
      linarith
    · rw [Interval.low_inner h.pos hedge]
      linarith
  rw [Interval.holds_of_iff]
  split
  · exact ⟨hlow.le, by linarith⟩
  · exact ⟨hlow, by linarith⟩

/-- A mantissa is shifted up until it is long, or its exponent the least. -/
theorem exists_canonical {a : Nat} {E : Int} (hpos : 0 < a) (hlt : a < 2 ^ 53)
    (hlow : -1074 ≤ E) (hhigh : E ≤ 971) :
    ∃ m e, Canonical m e ∧ (m * 2 ^ e : ℚ) = a * 2 ^ E := by
  have hlog : a.log2 < 53 := log2_lt_of_lt (by decide) hlt
  obtain ⟨k, hk⟩ : ∃ k, k = min (52 - a.log2) (E + 1074).toNat := ⟨_, rfl⟩
  have hshifted : (a * 2 ^ k).log2 = a.log2 + k := log2_mul_two_pow hpos k
  have hne : a * 2 ^ k ≠ 0 := Nat.mul_ne_zero (Nat.ne_of_gt hpos) (Nat.two_pow_pos k).ne'
  refine ⟨a * 2 ^ k, E - k, ⟨Nat.pos_of_ne_zero hne, ?_, by omega, ?_⟩, ?_⟩
  · apply (Nat.log2_lt hne).mp
    omega
  · by_cases hleast : E - k = -1074
    · exact .inl hleast
    · refine .inr ⟨by omega, (Nat.le_log2 hne).mp ?_⟩
      omega
  · rw [zpow_sub₀ two_ne_zero, zpow_natCast]
    push_cast
    field_simp

end Canonical

/-! ### Numbers that are rounded without loss -/

section Rounded

variable {m : Nat} {e : Int} (s : UnpackedFloat.Sign)

/-- A number without a remainder, in the interval of a double. -/
theorem roundWithAccuracy_exact (h : Canonical m e) {M : Nat} {E : Int}
    (hplace : E ≤ max (totalExponent M E - 53) (-1074)) (hv : (Interval.of m e).Holds (M * 2 ^ E)) :
    UnpackedFloat.roundWithAccuracy .binary64 s M E .exact = .finite s m e h.pos := by
  have hrounded : UnpackedFloat.roundWithAccuracy .binary64 s (M / 1) E
      (UnpackedFloat.accuracyOfFraction (M % 1) 1) = .finite s m e h.pos := by
    apply roundWithAccuracy_of_holds h s one_pos
    · rwa [Nat.div_one]
    · rwa [Nat.cast_one, div_one]
  rwa [Nat.div_one, Nat.mod_one] at hrounded

/-- Any mantissa and exponent may be given. -/
theorem round_of_holds (h : Canonical m e) {M : Nat} {E : Int} (hpos : 0 < M)
    (hv : (Interval.of m e).Holds (M * 2 ^ E)) :
    UnpackedFloat.round .binary64 s M E = .finite s m e h.pos := by
  have htarget : Format.binary64.targetExponent (totalExponent M E) =
      max ((M.log2 : Int) + 1 + E - 53) (-1074) := by
    rw [totalExponent]
    rfl
  simp only [UnpackedFloat.round, UnpackedFloat.decreaseExponent, htarget, Nat.shiftLeft_eq]
  generalize hk : (E - max ((M.log2 : Int) + 1 + E - 53) (-1074)).toNat = k
  apply roundWithAccuracy_exact s h
  · rw [totalExponent, log2_mul_two_pow hpos]
    omega
  · have hsame : ((M * 2 ^ k : Nat) * 2 ^ (E - k) : ℚ) = M * 2 ^ E := by
      rw [zpow_sub₀ two_ne_zero, zpow_natCast]
      push_cast
      field_simp
    rwa [hsame]

/-- A signed mantissa, of which the sign is known. -/
theorem normalize_of_holds (h : Canonical m e) {M E : Int}
    (hv : (Interval.of m e).Holds (M * 2 ^ E)) :
    UnpackedFloat.normalize .binary64 M E s = .finite .positive m e h.pos := by
  have hbelow : (0 : ℚ) < M * 2 ^ E := by
    have hm : (1 : ℚ) ≤ m := by exact_mod_cast h.pos
    refine lt_of_lt_of_le ?_ hv.bounds.1
    refine mul_pos ?_ (zpow_pos (by norm_num) _)
    have hlow := Interval.low_ge (e := e) h.pos
    linarith
  have hpos : 0 < M := by
    exact_mod_cast pos_of_mul_pos_left hbelow (zpow_pos (by norm_num) _).le
  have hcompare : compare M 0 = .gt := compare_gt_iff_gt.mpr hpos
  have hcast : ((M.toNat : Nat) : ℚ) = M := by
    exact_mod_cast Int.toNat_of_nonneg hpos.le
  simp only [UnpackedFloat.normalize, hcompare]
  refine round_of_holds .positive h (by omega) ?_
  rwa [hcast]

end Rounded

/-! ### Integers as doubles -/

section Integers

variable {m : Nat} {e : Int} {n : Nat}

theorem unpack_toFloat (hn : n < 2 ^ 53) (h : Canonical m e) (hv : (m * 2 ^ e : ℚ) = n) :
    n.toUInt64.toFloat.toModel.unpack = .finite .positive m e h.pos := by
  have hsize : n.toUInt64.toNat = n := by
    rw [Nat.toUInt64, UInt64.toNat_ofNat']
    exact Nat.mod_eq_of_lt (Nat.lt_trans hn (by decide))
  have hnormal : UnpackedFloat.normalize .binary64 n.toUInt64.toNat 0 .positive =
      .finite .positive m e h.pos := by
    refine normalize_of_holds .positive h ?_
    rw [hsize, zpow_zero, mul_one, Int.cast_natCast, ← hv]
    exact h.holds
  show UnpackedFloat.unpack .binary64 (UnpackedFloat.pack .binary64
    (UnpackedFloat.normalize .binary64 n.toUInt64.toNat 0 .positive)) = _
  rw [hnormal]
  exact unpack_pack .positive h

/-- Integers of at most 53 bits are converted, and multiplied by one. -/
theorem unpack_ofNat_of_lt (hn : n < 2 ^ 53) (h : Canonical m e) (hv : (m * 2 ^ e : ℚ) = n) :
    (Float.ofNat n).toModel.unpack = .finite .positive m e h.pos := by
  have hproduct : UnpackedFloat.mul .binary64 (.finite .positive m e h.pos)
      (.finite .positive (2 ^ 52) (-52) (by decide)) = .finite .positive m e h.pos := by
    refine roundWithAccuracy_exact .positive h ?_ ?_
    · rw [totalExponent, log2_mul_two_pow h.pos]
      omega
    · have hsame : ((m * 2 ^ 52 : Nat) * 2 ^ (e + -52) : ℚ) = m * 2 ^ e := by
        rw [zpow_add₀ two_ne_zero]
        push_cast
        norm_num
        ring
      rw [hsame]
      exact h.holds
  rw [ofNat_of_lt hn]
  show UnpackedFloat.unpack .binary64 (UnpackedFloat.pack .binary64
    (UnpackedFloat.mul .binary64 n.toUInt64.toFloat.toModel.unpack
      (Float.ofBits 0x3FF0000000000000).toModel.unpack)) = _
  rw [unpack_toFloat hn h hv, unpack_one, hproduct]
  exact unpack_pack .positive h

/-- Longer ones are rounded, with 53 bits behind the point. -/
theorem unpack_ofNat_of_le (hn : 2 ^ 53 ≤ n) (h : Canonical m e) (hv : (m * 2 ^ e : ℚ) = n) :
    (Float.ofNat n).toModel.unpack = .finite .positive m e h.pos := by
  have hpos : 0 < n := Nat.lt_of_lt_of_le (Nat.two_pow_pos 53) hn
  have hrounded : UnpackedFloat.roundWithAccuracy .binary64 .positive (n * 2 ^ 53) (-53) .exact =
      .finite .positive m e h.pos := by
    refine roundWithAccuracy_exact .positive h ?_ ?_
    · have hlog : 53 ≤ n.log2 := (Nat.le_log2 (Nat.ne_of_gt hpos)).mpr hn
      rw [totalExponent, log2_mul_two_pow hpos]
      omega
    · have hsame : ((n * 2 ^ 53 : Nat) * 2 ^ (-53 : Int) : ℚ) = m * 2 ^ e := by
        rw [hv, zpow_neg]
        push_cast
        field_simp
      rw [hsame]
      exact h.holds
  rw [toModel_ofNat_of_le hn]
  show UnpackedFloat.unpack .binary64 (UnpackedFloat.pack .binary64
    (UnpackedFloat.ofScientific .binary64 n 0)) = _
  rw [ofScientific_eq (Nat.ne_of_gt hpos), hrounded]
  exact unpack_pack .positive h

/-- An integer with parts in range is converted as it is. -/
theorem unpack_ofNat (h : Canonical m e) (hv : (m * 2 ^ e : ℚ) = n) :
    (Float.ofNat n).toModel.unpack = .finite .positive m e h.pos := by
  rcases Nat.lt_or_ge n (2 ^ 53) with hlow | hlow
  · exact unpack_ofNat_of_lt hlow h hv
  · exact unpack_ofNat_of_le hlow h hv

end Integers

/-! ### Values -/

/-- The number that a finite double denotes; `none` for NaN and the infinities. -/
def value? (x : Float) : Option ℚ :=
  (parts? x).map fun (negative, m, e) => withSign negative m * 2 ^ e

/-- The number that an unpacked double denotes. -/
inductive Denotes : UnpackedFloat → ℚ → Prop where
  | zero (s : UnpackedFloat.Sign) : Denotes (.zero s) 0
  | finite (s : UnpackedFloat.Sign) {m : Nat} {e : Int} (hm : 0 < m) :
      Denotes (.finite s m e hm) (s.apply m * 2 ^ e)

theorem withSign_eq_apply (s : UnpackedFloat.Sign) (m : Nat) :
    withSign (s == .negative) m = s.apply m := by
  cases s <;> rfl

theorem value?_eq_some_iff {x : Float} {v : ℚ} :
    value? x = some v ↔ Denotes x.toModel.unpack v := by
  unfold value? parts?
  cases x.toModel.unpack with
  | notANumber | infinity s =>
      refine iff_of_false (by simp) ?_
      rintro ⟨⟩
  | zero s =>
      have hzero : (withSign (s == .negative) 0 * 2 ^ (0 : Int) : ℚ) = 0 := by
        cases s <;> simp [withSign]
      simp only [Option.map_some, hzero, Option.some.injEq]
      constructor
      · rintro rfl
        exact .zero s
      · rintro ⟨⟩
        rfl
  | finite s m e hm =>
      simp only [Option.map_some, withSign_eq_apply, Option.some.injEq]
      constructor
      · rintro rfl
        exact .finite s hm
      · rintro ⟨⟩
        rfl

/-- Without places behind the point a number is an integer. -/
theorem mul_zpow_natCast (a : Int) (k : Nat) : (a * 2 ^ (k : Int) : ℚ) = (a * 2 ^ k : Int) := by
  rw [zpow_natCast]
  push_cast
  rfl

/-- Bits behind the point are cut off if there is none. -/
theorem withSign_div_eq_iff {negative : Bool} {m k : Nat} {n : Int} :
    (if m % Nat.pow 2 k = 0 then some (withSign negative (m / Nat.pow 2 k)) else none) = some n ↔
      withSign negative m = n * 2 ^ k := by
  split
  · next hdvd =>
      obtain ⟨q, rfl⟩ := Nat.dvd_of_mod_eq_zero hdvd
      have hscaled : withSign negative (Nat.pow 2 k * q) = withSign negative q * 2 ^ k := by
        cases negative <;> simp [withSign, mul_comm]
      have hquotient : Nat.pow 2 k * q / Nat.pow 2 k = q :=
        Nat.mul_div_cancel_left q (Nat.two_pow_pos k)
      have hpow : (2 : Int) ^ k ≠ 0 := by positivity
      rw [hscaled, hquotient, Option.some.injEq]
      exact (mul_left_inj' hpow).symm
  · next hrest =>
      refine iff_of_false (Option.some_ne_none n).symm fun heq => hrest ?_
      have habs := congrArg Int.natAbs heq
      rw [natAbs_withSign, Int.natAbs_mul, Int.natAbs_pow] at habs
      rw [habs]
      exact Nat.mul_mod_left _ _

/-- A double denotes the integer that it is taken for. -/
theorem integer?_eq_some_iff {x : Float} {n : Int} :
    integer? x = some n ↔ value? x = some (n : ℚ) := by
  unfold integer? value?
  cases parts? x with
  | none => simp
  | some parts =>
      obtain ⟨negative, m, e⟩ := parts
      simp only [Option.bind_some, Option.map_some, Option.some.injEq]
      by_cases hpos : 0 ≤ e
      · obtain ⟨k, rfl⟩ : ∃ k : Nat, e = k := ⟨e.toNat, by omega⟩
        have hshift : withSign negative (m <<< k) = withSign negative m * 2 ^ k := by
          cases negative <;> simp [withSign, Nat.shiftLeft_eq]
        rw [if_pos hpos, Int.toNat_natCast, mul_zpow_natCast, hshift, Option.some.injEq]
        exact Int.cast_inj.symm
      · obtain ⟨k, rfl⟩ : ∃ k : Nat, e = -k := ⟨(-e).toNat, by omega⟩
        have hunit : (2 ^ k : ℚ) ≠ 0 := by positivity
        rw [if_neg hpos, neg_neg, Int.toNat_natCast, withSign_div_eq_iff, zpow_neg, zpow_natCast,
          ← div_eq_mul_inv, div_eq_iff hunit]
        exact_mod_cast Iff.rfl

/-- A double is what it is unpacked to. -/
theorem unpack_inj {x y : Float} : x.toModel.unpack = y.toModel.unpack ↔ x = y := by
  refine ⟨fun h => ?_, fun h => h ▸ rfl⟩
  have hbits := (UnpackedFloat.unpack_inj_of_valid x.toModel.valid y.toModel.valid).mp h
  exact Float.toBits_inj.mp (UInt64.toBitVec_inj.mp hbits)

/-- Doubles are compared as they are unpacked. -/
theorem le_iff_unpack {x y : Float} :
    x ≤ y ↔ UnpackedFloat.le x.toModel.unpack y.toModel.unpack = true :=
  decide_eq_true_iff (p := x.toModel ≤ y.toModel)

theorem lt_iff_unpack {x y : Float} :
    x < y ↔ UnpackedFloat.lt x.toModel.unpack y.toModel.unpack = true :=
  decide_eq_true_iff (p := x.toModel < y.toModel)

/-- What is finite has canonical parts, so a change of the sign survives packing. -/
theorem unpack_pack_of_sign {x : Float} {u : UnpackedFloat}
    (h : ∀ {s m e hm}, u = .finite s m e hm → ∃ s', x.toModel.unpack = .finite s' m e hm) :
    UnpackedFloat.unpack .binary64 (UnpackedFloat.pack .binary64 u) = u := by
  cases u with
  | notANumber => rfl
  | infinity s | zero s => cases s <;> rfl
  | finite s m e hm =>
      obtain ⟨s', hx⟩ := h rfl
      exact unpack_pack s (canonical_of_unpack hx)

/-- A double with the other sign. -/
theorem unpack_neg (x : Float) : (-x).toModel.unpack = x.toModel.unpack.neg := by
  refine unpack_pack_of_sign (x := x) fun h => ?_
  cases hx : x.toModel.unpack with
  | notANumber | infinity | zero =>
      rw [hx] at h
      cases h
  | finite s m e hm =>
      rw [hx] at h
      cases h
      exact ⟨s, rfl⟩

/-- A double without its sign. -/
theorem unpack_abs (x : Float) : x.abs.toModel.unpack = x.toModel.unpack.abs := by
  refine unpack_pack_of_sign (x := x) fun h => ?_
  cases hx : x.toModel.unpack with
  | notANumber | infinity | zero =>
      rw [hx] at h
      cases h
  | finite s m e hm =>
      rw [hx] at h
      cases h
      exact ⟨s, rfl⟩

theorem Whole.exists_canonical {n : Nat} (h : Whole n) (hpos : 0 < n) :
    ∃ m e, Canonical m e ∧ (m * 2 ^ e : ℚ) = n := by
  obtain ⟨a, k, hlt, hk, rfl⟩ := h.exists_mantissa
  obtain ⟨m, e, hcanonical, hv⟩ := Double.exists_canonical (E := k)
    (Nat.pos_of_mul_pos_right hpos) hlt (by omega) (by omega)
  refine ⟨m, e, hcanonical, ?_⟩
  rw [hv, zpow_natCast]
  push_cast
  rfl

/-- **A whole number is converted as it is.** -/
theorem denotes_ofInt {n : Int} (h : Whole n.natAbs) :
    Denotes (Float.ofInt n).toModel.unpack n := by
  cases n with
  | ofNat n =>
      rcases Nat.eq_zero_or_pos n with rfl | hpos
      · rw [show ((Int.ofNat 0 : Int) : ℚ) = 0 from Int.cast_zero]
        exact .zero .positive
      · have hwhole : Whole n := h
        obtain ⟨m, e, hcanonical, hv⟩ := hwhole.exists_canonical hpos
        have hunpack : (Float.ofInt (Int.ofNat n)).toModel.unpack =
            .finite .positive m e hcanonical.pos := unpack_ofNat hcanonical hv
        have hvalue : ((Int.ofNat n : Int) : ℚ) =
            (UnpackedFloat.Sign.apply .positive m : Int) * 2 ^ e := hv.symm
        rw [hunpack, hvalue]
        exact .finite .positive hcanonical.pos
  | negSucc n =>
      have hwhole : Whole (n + 1) := h
      obtain ⟨m, e, hcanonical, hv⟩ := hwhole.exists_canonical n.succ_pos
      have hunpack : (Float.ofInt (Int.negSucc n)).toModel.unpack =
          .finite .negative m e hcanonical.pos := by
        show (-Float.ofNat (n + 1)).toModel.unpack = _
        rw [unpack_neg, unpack_ofNat hcanonical hv]
        rfl
      have hvalue : ((Int.negSucc n : Int) : ℚ) =
          (UnpackedFloat.Sign.apply .negative m : Int) * 2 ^ e := by
        rw [Int.cast_negSucc, ← hv, UnpackedFloat.Sign.apply]
        push_cast
        ring
      rw [hunpack, hvalue]
      exact .finite .negative hcanonical.pos

end Reckon.Double
