import Mathlib
import Reckon.Datum
import Reckon.Proofs.Range
/-!
# The same key

Keys of a mapping are compared by value: texts by their characters, moments by
the instant, foreign values by all that can be seen of them, truth values and
numbers as the numbers that they count as, whether these are given as integers
or as doubles.  Two doubles that denote the same integer are equal
(`Double.beq_of_integer?`), so being the same key is symmetric and transitive;
and every scalar but NaN is the same key as itself (`Scalar.beq_self_iff`).

That is all that an association asks of its keys: the key that was put has the
new value, and every other key what it had (`Association.get?_put`).
-/

namespace Reckon

namespace Double

open Float.Model

/-- A double that denotes an integer has parts that do. -/
theorem parts_of_integer? {x : Float} {n : Int} (h : integer? x = some n) :
    ∃ negative m e, parts? x = some (negative, m, e) ∧
      withSign negative m * 2 ^ e.toNat = n * 2 ^ (-e).toNat := by
  have hmul : ∀ negative m k, withSign negative (m * k) = withSign negative m * k := by
    intro negative m k
    cases negative <;> simp [withSign]
  obtain ⟨⟨negative, m, e⟩, hparts, hwhole⟩ := Option.bind_eq_some_iff.mp h
  refine ⟨negative, m, e, hparts, ?_⟩
  by_cases hpos : 0 ≤ e
  · have hnone : (-e).toNat = 0 := by omega
    simp only [hpos, if_true, Option.some_inj] at hwhole
    rw [← hwhole, Nat.shiftLeft_eq, hmul, hnone]
    push_cast
    ring
  · have hnone : e.toNat = 0 := by omega
    simp only [hpos, if_false] at hwhole
    split at hwhole
    · next hdvd =>
        cases hwhole
        have hm : m / 2 ^ (-e).toNat * 2 ^ (-e).toNat = m :=
          Nat.div_mul_cancel (Nat.dvd_of_mod_eq_zero hdvd)
        have hsplit := hmul negative (m / 2 ^ (-e).toNat) (2 ^ (-e).toNat)
        rw [hm] at hsplit
        rw [hnone, pow_zero, mul_one, hsplit]
        push_cast
        rfl
    · cases hwhole

/-- A mantissa of 53 bits is no multiple of another by a power of two. -/
theorem le_of_mul_two_pow {m k a b : Nat} (h : m * 2 ^ a = k * 2 ^ b) (hm : m < 2 ^ 53)
    (hk : a < b → 2 ^ 52 ≤ k) : b ≤ a := by
  by_contra hlt
  obtain ⟨d, rfl⟩ : ∃ d, b = a + (d + 1) := ⟨b - a - 1, by omega⟩
  have hshifted : m = k * 2 ^ d * 2 := by
    apply Nat.eq_of_mul_eq_mul_right (Nat.two_pow_pos a)
    rw [h]
    ring
  have hlong : k ≤ k * 2 ^ d := Nat.le_mul_of_pos_right k (Nat.two_pow_pos d)
  have hbits := hk (by omega)
  omega

/-- A positive mantissa has the sign of the integer. -/
theorem negative_iff_of_eq {negative : Bool} {m : Nat} {n : Int} {a b : Nat} (hm : 0 < m)
    (h : withSign negative m * 2 ^ a = n * 2 ^ b) : negative = true ↔ n < 0 := by
  have ha : (0 : Int) < 2 ^ a := by positivity
  have hb : (0 : Int) < 2 ^ b := by positivity
  have hm' : (0 : Int) < m := by exact_mod_cast hm
  cases negative with
  | true =>
      have hneg : n * 2 ^ b < 0 := by
        rw [← h]
        exact mul_neg_of_neg_of_pos (by simpa [withSign] using hm) ha
      exact iff_of_true rfl (neg_of_mul_neg_left hneg hb.le)
  | false =>
      have hpos : 0 < n * 2 ^ b := by
        rw [← h]
        exact mul_pos hm' ha
      exact iff_of_false Bool.false_ne_true (pos_of_mul_pos_left hpos hb.le).not_gt

/-- Without its sign, an integer is the mantissa in its place. -/
theorem natAbs_of_eq {negative : Bool} {m : Nat} {n : Int} {a b : Nat}
    (h : withSign negative m * 2 ^ a = n * 2 ^ b) : m * 2 ^ a = n.natAbs * 2 ^ b := by
  have habs := congrArg Int.natAbs h
  simpa [Int.natAbs_mul, Int.natAbs_pow, natAbs_withSign] using habs

/-- The parts of a double are those of a zero, or its own. -/
theorem unpack_of_parts {x : Float} {negative : Bool} {m : Nat} {e : Int}
    (h : parts? x = some (negative, m, e)) :
    (m = 0 ∧ ∃ s, x.toModel.unpack = .zero s) ∨
      ∃ s hm, x.toModel.unpack = .finite s m e hm ∧ negative = (s == .negative) := by
  unfold parts? at h
  cases hx : x.toModel.unpack with
  | infinity s | notANumber =>
      rw [hx] at h
      cases h
  | zero s =>
      rw [hx] at h
      cases h
      exact .inl ⟨rfl, s, rfl⟩
  | finite s m' e' hm =>
      rw [hx] at h
      cases h
      exact .inr ⟨s, hm, rfl, rfl⟩

/-- **Two doubles that denote the same integer are equal.** -/
theorem beq_of_integer? {x y : Float} {n : Int} (hx : integer? x = some n)
    (hy : integer? y = some n) : (x == y) = true := by
  obtain ⟨negative, m, e, hparts, hxn⟩ := parts_of_integer? hx
  obtain ⟨negative', k, f, hparts', hyn⟩ := parts_of_integer? hy
  have hm := natAbs_of_eq hxn
  have hk := natAbs_of_eq hyn
  have hcross : m * 2 ^ (e.toNat + (-f).toNat) = k * 2 ^ (f.toNat + (-e).toNat) := by
    calc m * 2 ^ (e.toNat + (-f).toNat) = m * 2 ^ e.toNat * 2 ^ (-f).toNat := by ring
      _ = n.natAbs * 2 ^ (-f).toNat * 2 ^ (-e).toNat := by rw [hm]; ring
      _ = k * 2 ^ (f.toNat + (-e).toNat) := by rw [← hk]; ring
  show x.toModel.unpack.beq y.toModel.unpack = true
  rcases unpack_of_parts hparts with ⟨rfl, s, hs⟩ | ⟨s, hmpos, hs, rfl⟩ <;>
    rcases unpack_of_parts hparts' with ⟨rfl, t, ht⟩ | ⟨t, hkpos, ht, rfl⟩
  · rw [hs, ht]
    rfl
  · have hzero : 0 < k * 2 ^ (f.toNat + (-e).toNat) := Nat.mul_pos hkpos (Nat.two_pow_pos _)
    omega
  · have hzero : 0 < m * 2 ^ (e.toNat + (-f).toNat) := Nat.mul_pos hmpos (Nat.two_pow_pos _)
    omega
  · obtain ⟨hmlt, -, hmlong⟩ := finite_canonical hs
    obtain ⟨hklt, -, hklong⟩ := finite_canonical ht
    have hle := le_of_mul_two_pow hcross hmlt (by omega)
    have hge := le_of_mul_two_pow hcross.symm hklt (by omega)
    obtain rfl : e = f := by omega
    obtain rfl : m = k := by
      apply Nat.eq_of_mul_eq_mul_right (Nat.two_pow_pos (e.toNat + (-e).toNat))
      rw [hcross]
    have hsign : (s == .negative) = (t == .negative) :=
      Bool.eq_iff_iff.mpr
        ((negative_iff_of_eq hmpos hxn).trans (negative_iff_of_eq hmpos hyn).symm)
    obtain rfl : s = t := by
      revert hsign
      cases s <;> cases t <;> simp
    rw [UnpackedFloat.beq_iff_ne_notANumber_and_eq, hs, ht]
    simp

/-- Equal doubles denote the same integer, or none. -/
theorem integer?_eq_of_beq {x y : Float} (h : (x == y) = true) : integer? x = integer? y := by
  obtain ⟨-, -, hxy | ⟨hx, hy⟩ | ⟨hx, hy⟩⟩ := Float.beq_iff_ne_nan_and_eq.mp h
  · rw [hxy]
  · rw [hx, hy]
    decide +kernel
  · rw [hx, hy]
    decide +kernel

end Double

/-! ### Numbers -/

namespace Number

/-- The integer that a number denotes, if it denotes one. -/
def whole? : Number → Option Int
  | .integer n => some n
  | .double x => Double.integer? x

/-- Numbers are equal if they denote the same integer, or are equal doubles. -/
theorem equal_iff {m n : Number} : m.equal n = true ↔
    (∃ i, m.whole? = some i ∧ n.whole? = some i) ∨
      ∃ x y, m = .double x ∧ n = .double y ∧ (x == y) = true := by
  cases m with
  | integer i =>
      cases n with
      | integer j => simpa [equal, whole?] using eq_comm
      | double y => simp [equal, whole?, Double.equalsInteger]
  | double x =>
      cases n with
      | integer j => simp [equal, whole?, Double.equalsInteger]
      | double y =>
          constructor
          · intro h
            exact .inr ⟨x, y, rfl, rfl, h⟩
          · intro h
            rcases h with ⟨i, hx, hy⟩ | ⟨x', y', hx, hy, h⟩
            · exact Double.beq_of_integer? hx hy
            · cases hx
              cases hy
              exact h

/-- Equality of numbers is symmetric. -/
theorem equal_symm {m n : Number} (h : m.equal n = true) : n.equal m = true := by
  rcases equal_iff.mp h with ⟨i, hm, hn⟩ | ⟨x, y, hm, hn, hxy⟩
  · exact equal_iff.mpr (.inl ⟨i, hn, hm⟩)
  · exact equal_iff.mpr (.inr ⟨y, x, hn, hm, BEq.symm hxy⟩)

/-- Equality of numbers is transitive. -/
theorem equal_trans {m n k : Number} (hmn : m.equal n = true) (hnk : n.equal k = true) :
    m.equal k = true := by
  rcases equal_iff.mp hmn with ⟨i, hm, hn⟩ | ⟨x, y, rfl, rfl, hxy⟩
  · rcases equal_iff.mp hnk with ⟨j, hn', hk⟩ | ⟨y, z, rfl, rfl, hyz⟩
    · cases hn.symm.trans hn'
      exact equal_iff.mpr (.inl ⟨i, hm, hk⟩)
    · have hz : Double.integer? z = some i := (Double.integer?_eq_of_beq hyz).symm.trans hn
      exact equal_iff.mpr (.inl ⟨i, hm, hz⟩)
  · rcases equal_iff.mp hnk with ⟨j, hn', hk⟩ | ⟨y', z, hy, rfl, hyz⟩
    · have hx : Double.integer? x = some j := (Double.integer?_eq_of_beq hxy).trans hn'
      exact equal_iff.mpr (.inl ⟨j, hx, hk⟩)
    · cases hy
      exact equal_iff.mpr (.inr ⟨x, z, rfl, rfl, BEq.trans hxy hyz⟩)

end Number

/-! ### Moments -/

namespace Moment

theorem same_symm {a b : Moment} (h : a.same b = true) : b.same a = true := by
  unfold same at h ⊢
  cases ha : a.universalMinutes? <;> cases hb : b.universalMinutes? <;> simp_all

theorem same_trans {a b c : Moment} (hab : a.same b = true) (hbc : b.same c = true) :
    a.same c = true := by
  unfold same at hab hbc ⊢
  cases ha : a.universalMinutes? <;> cases hb : b.universalMinutes? <;>
    cases hc : c.universalMinutes? <;> simp_all

end Moment

/-! ### Scalars -/

namespace Scalar

/-- Scalars that are the same key. -/
inductive Same : Scalar → Scalar → Prop
  | nothing : Same .nothing .nothing
  | text (s : String) : Same (.text s) (.text s)
  | illFormed (points : List Nat) : Same (.illFormed points) (.illFormed points)
  | moment {a b : Moment} (h : a.same b = true) : Same (.moment a) (.moment b)
  | foreign (value : Foreign) : Same (.foreign value) (.foreign value)
  | number {a b : Scalar} {m n : Number} (ha : a.count? = some m) (hb : b.count? = some n)
      (h : m.equal n = true) : Same a b

/-- The test for the same key finds it. -/
theorem beq_iff {a b : Scalar} : (a == b) = true ↔ Same a b := by
  constructor
  · intro h
    have hkey : a.sameKey b = true := h
    unfold sameKey at hkey
    split at hkey
    · exact .nothing
    · next s t =>
        cases eq_of_beq hkey
        exact .text _
    · next s t =>
        cases eq_of_beq hkey
        exact .illFormed _
    · exact .moment hkey
    · next s t =>
        cases eq_of_beq hkey
        exact .foreign _
    · split at hkey
      · next m n ha hb => exact .number ha hb hkey
      · cases hkey
  · intro h
    show a.sameKey b = true
    cases h with
    | nothing => rfl
    | text s => exact beq_self_eq_true s
    | illFormed points => exact beq_self_eq_true points
    | moment h => exact h
    | foreign value => exact beq_self_eq_true value
    | @number _ _ m n ha hb h =>
        cases a with
        | boolean => cases b <;> cases ha <;> cases hb <;> exact h
        | number => cases b <;> cases ha <;> cases hb <;> exact h
        | nothing | text | illFormed | moment | foreign => cases ha

theorem Same.symm {a b : Scalar} (h : Same a b) : Same b a := by
  cases h with
  | nothing => exact .nothing
  | text s => exact .text s
  | illFormed points => exact .illFormed points
  | moment h => exact .moment (Moment.same_symm h)
  | foreign value => exact .foreign value
  | number ha hb h => exact .number hb ha (Number.equal_symm h)

theorem Same.trans {a b c : Scalar} (hab : Same a b) (hbc : Same b c) : Same a c := by
  cases hab with
  | nothing | text | illFormed | foreign =>
      cases hbc with
      | number hb => cases hb
      | _ => constructor
  | moment h =>
      cases hbc with
      | moment h' => exact .moment (Moment.same_trans h h')
      | number hb => cases hb
  | number ha hb h =>
      cases hbc with
      | nothing | text | illFormed | moment | foreign => cases hb
      | number hb' hc h' =>
          cases hb.symm.trans hb'
          exact .number ha hc (Number.equal_trans h h')

/-- Being the same key is symmetric and transitive. -/
instance : PartialEquivBEq Scalar where
  symm h := beq_iff.mpr (beq_iff.mp h).symm
  trans hab hbc := beq_iff.mpr ((beq_iff.mp hab).trans (beq_iff.mp hbc))

/-- Every scalar but a double that is no number is the same key as itself. -/
theorem beq_self_iff {k : Scalar} : (k == k) = true ↔ k.isNaN = false := by
  cases k with
  | nothing => exact iff_of_true rfl rfl
  | boolean b => exact iff_of_true (beq_self_eq_true (if b then 1 else 0 : Int)) rfl
  | text s => exact iff_of_true (beq_self_eq_true s) rfl
  | illFormed points => exact iff_of_true (beq_self_eq_true points) rfl
  | moment m => exact iff_of_true m.same_self rfl
  | foreign value => exact iff_of_true (beq_self_eq_true value) rfl
  | number n =>
      cases n with
      | integer i => exact iff_of_true (beq_self_eq_true i) rfl
      | double x =>
          show (x == x) = true ↔ x.isNaN = false
          rw [Float.beq_self_iff, Float.isNaN_eq_decide_eq_nan, decide_eq_false_iff_not]

end Scalar

/-! ### Entries with such keys -/

namespace Association

variable {κ υ : Type} [BEq κ]

/-- Keys keep their places and their spelling, and a new one comes last. -/
theorem keys_put (k : κ) (v : υ) (entries : List (κ × υ)) :
    keys (put k v entries) = keys entries ++ if (get? k entries).isSome then [] else [k] := by
  induction entries with
  | nil => rfl
  | cons entry rest ih =>
      obtain ⟨k', v'⟩ := entry
      by_cases hk : (k' == k) = true
      · simp [put, get?, keys, hk]
      · simp only [keys] at ih
        simp [put, get?, keys, hk, ih]

/-- Putting a value leaves all entries but that of the key. -/
theorem erase_put {k : κ} (hk : (k == k) = true) (v : υ) (entries : List (κ × υ)) :
    erase k (put k v entries) = erase k entries := by
  induction entries with
  | nil => simp [put, erase, hk]
  | cons entry rest ih =>
      obtain ⟨k', v'⟩ := entry
      by_cases hk' : (k' == k) = true
      · simp [put, erase, hk']
      · simp only [erase] at ih
        simp [put, erase, hk', ih]

theorem erase_comm (k k' : κ) (entries : List (κ × υ)) :
    erase k (erase k' entries) = erase k' (erase k entries) :=
  List.filter_comm _ _ _

section Keyed

variable [PartialEquivBEq κ]

/-- The same key has the same value. -/
theorem get?_congr {k k' : κ} (h : (k == k') = true) (entries : List (κ × υ)) :
    get? k entries = get? k' entries := by
  induction entries with
  | nil => rfl
  | cons entry rest ih =>
      rw [get?, get?, BEq.congr_right h, ih]

/-- The key that was put has the new value, and every other key what it had. -/
theorem get?_put (k k' : κ) (v : υ) (entries : List (κ × υ)) :
    get? k' (put k v entries) = if k == k' then some v else get? k' entries := by
  induction entries with
  | nil => rfl
  | cons entry rest ih =>
      obtain ⟨k₁, v₁⟩ := entry
      by_cases hk : (k₁ == k) = true
      · have hsame : (k₁ == k') = (k == k') := BEq.congr_left hk
        by_cases hk' : (k == k') = true <;> simp [put, get?, hk, hsame, hk']
      · by_cases hk' : (k == k') = true
        · have hother : (k₁ == k') = false := by
            rw [← BEq.congr_right hk']
            simpa using hk
          simp [put, get?, hk, hother, ih]
        · simp [put, get?, hk, hk', ih]

/-- No two keys are the same. -/
def Distinct (entries : List (κ × υ)) : Prop :=
  entries.Pairwise fun a b => (a.1 == b.1) = false

end Keyed

end Association

end Reckon
