import Reckon.Proofs.ExactValues
/-!
# The shortest decimal lies in the rounding interval

The printer of doubles walks decimal grids from coarse to fine and takes a point
that lies in the rounding interval of the double.  Only the two points next to the
centre are tried, and the one that is taken does lie there
(`Interval.holds_of_hit?`).  A grid of which the steps are no wider than a quarter of
the last binary place has such a point (`Interval.isSome_hit?`), and the walk comes
down to such a grid (`ten_zpow_le_quarter`).  So the printed decimal is one that is
rounded to the double (`shortest_holds`).
-/

namespace Reckon.Double

/-! ### Decimal grids -/

theorem scale_pos (b c : Int) : 0 < (scale b c).1 ∧ 0 < (scale b c).2 :=
  ⟨Nat.mul_pos (Nat.two_pow_pos _) (Nat.pow_pos (by decide)),
    Nat.mul_pos (Nat.two_pow_pos _) (Nat.pow_pos (by decide))⟩

theorem toNat_zpow {a : Nat} (ha : 0 < a) (k : Int) :
    ((a ^ k.toNat : Nat) / (a ^ (-k).toNat : Nat) : ℚ) = a ^ k := by
  have hne : (a : ℚ) ≠ 0 := by exact_mod_cast Nat.ne_of_gt ha
  rw [Nat.cast_pow, Nat.cast_pow, ← zpow_natCast, ← zpow_natCast, ← zpow_sub₀ hne]
  congr 1
  omega

/-- The fraction that a scale stands for. -/
theorem scale_eq (b c : Int) : ((scale b c).1 / (scale b c).2 : ℚ) = 2 ^ b / 10 ^ c := by
  have htwo := toNat_zpow (a := 2) (by decide) b
  have hten := toNat_zpow (a := 10) (by decide) (-c)
  rw [neg_neg] at hten
  have hnum : (scale b c).1 = 2 ^ b.toNat * 10 ^ (-c).toNat := rfl
  have hden : (scale b c).2 = 2 ^ (-b).toNat * 10 ^ c.toNat := rfl
  rw [hnum, hden, Nat.cast_mul, Nat.cast_mul, ← div_mul_div_comm, htwo, hten, zpow_neg]
  push_cast
  rfl

section Grid

variable {i : Interval} {e : Int} {d : Nat}

/-- The last point of a grid that is not above the centre of an interval. -/
def Interval.below (i : Interval) (e : Int) : Nat :=
  i.centre * (scale i.quarter e).1 / (scale i.quarter e).2

/-- A point of a grid is not before an interval. -/
def Interval.Enters (i : Interval) (e : Int) (d : Nat) : Prop :=
  if i.closed then i.low * (scale i.quarter e).1 ≤ d * (scale i.quarter e).2
  else i.low * (scale i.quarter e).1 < d * (scale i.quarter e).2

/-- A point of a grid is not behind an interval. -/
def Interval.Stays (i : Interval) (e : Int) (d : Nat) : Prop :=
  if i.closed then d * (scale i.quarter e).2 ≤ i.high * (scale i.quarter e).1
  else d * (scale i.quarter e).2 < i.high * (scale i.quarter e).1

instance : Decidable (i.Enters e d) :=
  inferInstanceAs (Decidable (if i.closed then _ else _))

instance : Decidable (i.Stays e d) :=
  inferInstanceAs (Decidable (if i.closed then _ else _))

theorem Interval.below_mul_le (i : Interval) (e : Int) :
    i.below e * (scale i.quarter e).2 ≤ i.centre * (scale i.quarter e).1 :=
  Nat.div_mul_le_self _ _

theorem Interval.lt_below_succ_mul (i : Interval) (e : Int) :
    i.centre * (scale i.quarter e).1 < (i.below e + 1) * (scale i.quarter e).2 :=
  Nat.lt_mul_of_div_lt (Nat.lt_succ_self _) (scale_pos i.quarter e).2

/-- What is not below the centre is in the interval, or behind it. -/
theorem Interval.enters_of_centre_le (hlow : i.low < i.centre)
    (h : i.centre * (scale i.quarter e).1 ≤ d * (scale i.quarter e).2) : i.Enters e d := by
  have hlow' := Nat.mul_lt_mul_of_pos_right hlow (scale_pos i.quarter e).1
  unfold Enters
  split <;> omega

/-- What is not above the centre is in the interval, or before it. -/
theorem Interval.stays_of_le_centre (hhigh : i.centre < i.high)
    (h : d * (scale i.quarter e).2 ≤ i.centre * (scale i.quarter e).1) : i.Stays e d := by
  have hhigh' := Nat.mul_lt_mul_of_pos_right hhigh (scale_pos i.quarter e).1
  unfold Stays
  split <;> omega

/-- Between the ends of an interval a point of a grid lies in it. -/
theorem Interval.holds_of_enters (hin : i.Enters e d) (hout : i.Stays e d) :
    i.Holds (d * 10 ^ e) := by
  obtain ⟨hnum, hden⟩ := scale_pos i.quarter e
  have hnum' : (0 : ℚ) < (scale i.quarter e).1 := by exact_mod_cast hnum
  have hden' : (0 : ℚ) < (scale i.quarter e).2 := by exact_mod_cast hden
  have hscale := scale_eq i.quarter e
  unfold Enters at hin
  unfold Stays at hout
  generalize (scale i.quarter e).1 = num at *
  generalize (scale i.quarter e).2 = den at *
  have hten : (10 : ℚ) ^ e = den / num * 2 ^ i.quarter := by
    have hne : (10 : ℚ) ^ e ≠ 0 := zpow_ne_zero _ (by norm_num)
    field_simp at hscale ⊢
    linarith
  rw [hten, ← mul_assoc, ← mul_div_assoc, holds_iff]
  split at hin
  · next hclosed =>
      rw [if_pos hclosed] at hout ⊢
      rw [le_div_iff₀ hnum', div_le_iff₀ hnum']
      exact_mod_cast And.intro hin hout
  · next hopen =>
      rw [if_neg hopen] at hout ⊢
      rw [lt_div_iff₀ hnum', div_lt_iff₀ hnum']
      exact_mod_cast And.intro hin hout

/-- The two points next to the centre are tried. -/
theorem Interval.hit?_eq (i : Interval) (e : Int) : i.hit? e =
    if 0 < i.below e ∧ i.Enters e (i.below e) then
      if i.Stays e (i.below e + 1) then
        match compare (2 * i.centre * (scale i.quarter e).1)
          ((2 * i.below e + 1) * (scale i.quarter e).2) with
        | .lt => some (i.below e)
        | .gt => some (i.below e + 1)
        | .eq => some (if i.below e % 2 = 0 then i.below e else i.below e + 1)
      else some (i.below e)
    else if i.Stays e (i.below e + 1) then some (i.below e + 1)
    else none :=
  rfl

/-- The point that is taken is one of the two, and on its side in the interval. -/
theorem Interval.hit?_eq_some (h : i.hit? e = some d) :
    d = i.below e ∧ i.Enters e d ∨ d = i.below e + 1 ∧ i.Stays e d := by
  rw [hit?_eq] at h
  split at h
  · next hin =>
      split at h
      · next hout =>
          have hneighbour : d = i.below e ∨ d = i.below e + 1 := by
            split at h
            · exact .inl (Option.some.inj h).symm
            · exact .inr (Option.some.inj h).symm
            · have heven := Option.some.inj h
              split at heven
              · exact .inl heven.symm
              · exact .inr heven.symm
          rcases hneighbour with rfl | rfl
          · exact .inl ⟨rfl, hin.2⟩
          · exact .inr ⟨rfl, hout⟩
      · cases h
        exact .inl ⟨rfl, hin.2⟩
  · split at h
    · next hout =>
        cases h
        exact .inr ⟨rfl, hout⟩
    · cases h

/-- A point that is taken lies in the interval. -/
theorem Interval.holds_of_hit? (hlow : i.low < i.centre) (hhigh : i.centre < i.high)
    (h : i.hit? e = some d) : i.Holds (d * 10 ^ e) := by
  rcases hit?_eq_some h with ⟨rfl, hin⟩ | ⟨rfl, hout⟩
  · exact holds_of_enters hin (stays_of_le_centre hhigh (i.below_mul_le e))
  · exact holds_of_enters (enters_of_centre_le hlow (i.lt_below_succ_mul e).le) hout

/-- Steps of a quarter of the last place, or less, do not pass over an interval. -/
theorem Interval.stays_of_fine (hhigh : i.centre + 1 < i.high)
    (hfine : (10 : ℚ) ^ e ≤ 2 ^ i.quarter) : i.Stays e (i.below e + 1) := by
  obtain ⟨hnum, hden⟩ := scale_pos i.quarter e
  have hle : (scale i.quarter e).2 ≤ (scale i.quarter e).1 := by
    have hten : (0 : ℚ) < 10 ^ e := zpow_pos (by norm_num) _
    have hden' : (0 : ℚ) < (scale i.quarter e).2 := by exact_mod_cast hden
    have hone : (1 : ℚ) ≤ (scale i.quarter e).1 / (scale i.quarter e).2 := by
      rw [scale_eq]
      exact (one_le_div hten).mpr hfine
    rw [le_div_iff₀ hden', one_mul] at hone
    exact_mod_cast hone
  have hlt : (i.below e + 1) * (scale i.quarter e).2 < i.high * (scale i.quarter e).1 :=
    calc (i.below e + 1) * (scale i.quarter e).2
        = i.below e * (scale i.quarter e).2 + (scale i.quarter e).2 := Nat.succ_mul _ _
      _ ≤ i.centre * (scale i.quarter e).1 + (scale i.quarter e).1 :=
        Nat.add_le_add (i.below_mul_le e) hle
      _ = (i.centre + 1) * (scale i.quarter e).1 := (Nat.succ_mul _ _).symm
      _ < i.high * (scale i.quarter e).1 := Nat.mul_lt_mul_of_pos_right hhigh hnum
  unfold Stays
  split
  · exact hlt.le
  · exact hlt

/-- Where the decimals stand close enough one of them is in the interval. -/
theorem Interval.isSome_hit? (hhigh : i.centre + 1 < i.high)
    (hfine : (10 : ℚ) ^ e ≤ 2 ^ i.quarter) : (i.hit? e).isSome := by
  have hout := stays_of_fine hhigh hfine
  rw [hit?_eq, if_pos hout, if_pos hout]
  split
  · split <;> rfl
  · rfl

end Grid

section Scan

variable {i : Interval} {e : Int}

/-- A search that goes on until the decimals stand close enough finds one in the
interval. -/
theorem Interval.scan_holds (hlow : i.low < i.centre) (hhigh : i.centre + 1 < i.high) (steps : Nat)
    (hfine : (10 : ℚ) ^ (e - steps) ≤ 2 ^ i.quarter) :
    i.Holds ((i.scan (steps + 1) e).digits * 10 ^ (i.scan (steps + 1) e).exponent) := by
  induction steps generalizing e with
  | zero =>
      rw [Nat.cast_zero, Int.sub_zero] at hfine
      obtain ⟨d, hd⟩ := Option.isSome_iff_exists.mp (i.isSome_hit? hhigh hfine)
      have hscan : i.scan (0 + 1) e = ⟨d, e⟩ := by
        rw [scan, hd]
      rw [hscan]
      exact holds_of_hit? hlow (by omega) hd
  | succ steps ih =>
      cases hd : i.hit? e with
      | some d =>
          have hscan : i.scan (steps + 1 + 1) e = ⟨d, e⟩ := by
            rw [scan, hd]
          rw [hscan]
          exact holds_of_hit? hlow (by omega) hd
      | none =>
          have hscan : i.scan (steps + 1 + 1) e = i.scan (steps + 1) (e - 1) := by
            rw [scan, hd]
          rw [hscan]
          refine ih ?_
          rwa [Int.sub_sub, Int.add_comm, ← Nat.cast_succ]

/-- The walk goes down one grid at a time. -/
theorem Interval.le_scan_exponent (i : Interval) (steps : Nat) (e : Int) :
    e - steps ≤ (i.scan steps e).exponent := by
  induction steps generalizing e with
  | zero =>
      show e - (0 : Nat) ≤ e
      omega
  | succ steps ih =>
      rw [scan]
      split
      · show e - (steps + 1 : Nat) ≤ e
        omega
      · have hbelow := ih (e - 1)
        omega

end Scan

/-! ### Powers of ten and of two -/

/-- `10^3` is below `2^10`, and `2^23` below `10^7`. -/
theorem ten_zpow_le_two_zpow {c b : Int} (hpos : 10 * c ≤ 3 * b) (hneg : 23 * c ≤ 7 * b) :
    (10 : ℚ) ^ c ≤ 2 ^ b := by
  rcases lt_or_ge c 0 with hc | hc
  · rcases lt_or_ge b 0 with hb | hb
    · obtain ⟨k, rfl⟩ : ∃ k : Nat, c = -k := ⟨(-c).toNat, by omega⟩
      obtain ⟨l, rfl⟩ : ∃ l : Nat, b = -l := ⟨(-b).toNat, by omega⟩
      have hpow : (2 ^ l) ^ 23 ≤ (10 ^ k) ^ 23 := by
        calc (2 ^ l) ^ 23 = (2 ^ 23) ^ l := by rw [← pow_mul, ← pow_mul, Nat.mul_comm]
          _ ≤ (10 ^ 7) ^ l := Nat.pow_le_pow_left (by decide) l
          _ = 10 ^ (7 * l) := (pow_mul 10 7 l).symm
          _ ≤ 10 ^ (k * 23) := Nat.pow_le_pow_right (by decide) (by omega)
          _ = (10 ^ k) ^ 23 := pow_mul 10 k 23
      have hle : (2 : Nat) ^ l ≤ 10 ^ k := (Nat.pow_le_pow_iff_left (by decide)).mp hpow
      rw [zpow_neg, zpow_neg, zpow_natCast, zpow_natCast, inv_le_inv₀ (by positivity) (by positivity)]
      exact_mod_cast hle
    · calc (10 : ℚ) ^ c ≤ 1 := zpow_le_one_of_nonpos₀ (by norm_num) hc.le
        _ ≤ 2 ^ b := one_le_zpow₀ (by norm_num) hb
  · obtain ⟨k, rfl⟩ : ∃ k : Nat, c = k := ⟨c.toNat, by omega⟩
    obtain ⟨l, rfl⟩ : ∃ l : Nat, b = l := ⟨b.toNat, by omega⟩
    have hpow : (10 ^ k) ^ 3 ≤ (2 ^ l) ^ 3 := by
      calc (10 ^ k) ^ 3 = (10 ^ 3) ^ k := by rw [← pow_mul, ← pow_mul, Nat.mul_comm]
        _ ≤ (2 ^ 10) ^ k := Nat.pow_le_pow_left (by decide) k
        _ = 2 ^ (10 * k) := (pow_mul 2 10 k).symm
        _ ≤ 2 ^ (l * 3) := Nat.pow_le_pow_right (by decide) (by omega)
        _ = (2 ^ l) ^ 3 := pow_mul 2 l 3
    have hle : (10 : Nat) ^ k ≤ 2 ^ l := (Nat.pow_le_pow_iff_left (by decide)).mp hpow
    rw [zpow_natCast, zpow_natCast]
    exact_mod_cast hle

/-- The last grid of the walk is fine enough. -/
theorem ten_zpow_le_quarter {m : Nat} {e : Int} (h : Canonical m e) :
    (10 : ℚ) ^ (ceilingExponent m e - 23) ≤ 2 ^ (Interval.of m e).quarter := by
  have hlog : m.log2 < 53 := log2_lt_of_lt (by decide) h.lt
  have hlow := h.ge
  have hhigh := h.le
  have hquarter : (Interval.of m e).quarter = e - 2 := rfl
  rw [hquarter]
  unfold ceilingExponent
  apply ten_zpow_le_two_zpow
  · omega
  · omega

/-- **The decimal that is printed for a double is rounded to the double.** -/
theorem shortest_holds {m : Nat} {e : Int} (h : Canonical m e) :
    (Interval.of m e).Holds ((shortest m e).digits * 10 ^ (shortest m e).exponent) := by
  have hpos := h.pos
  refine Interval.scan_holds ?_ ?_ 23 (ten_zpow_le_quarter h)
  · show (if m = Nat.pow 2 52 ∧ e ≠ -1074 then 4 * m - 1 else 4 * m - 2) < 4 * m
    split <;> omega
  · show 4 * m + 1 < 4 * m + 2
    omega

/-- It has no more places than any double can need. -/
theorem le_shortest_exponent {m : Nat} {e : Int} (h : Canonical m e) :
    -347 ≤ (shortest m e).exponent := by
  have hlow := h.ge
  have hwalk := (Interval.of m e).le_scan_exponent 24 (ceilingExponent m e)
  have hstart : -323 ≤ ceilingExponent m e := by
    unfold ceilingExponent
    omega
  unfold shortest
  omega

end Reckon.Double
