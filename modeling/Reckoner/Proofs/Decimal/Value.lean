import Mathlib.Algebra.Order.Field.Power
import Mathlib.Algebra.Order.Ring.Rat
import Mathlib.Data.Sign.Basic
import Mathlib.Tactic.Linarith
import Mathlib.Tactic.Positivity
import Reckoner.Proofs.Decimal.Digits
import Reckoner.Proofs.Decimal.Regular

/-!
The rational number behind a decimal. Two decimals compare as equal exactly if they denote the same
number, however many zeros their coefficients end in.
-/

namespace Reckoner

theorem toDigits_mul_pow {n : Nat} (positive : 0 < n) (k : Nat) :
    Nat.toDigits 10 (n * 10 ^ k) = Nat.toDigits 10 n ++ Decimal.zeros k := by
  induction k with
  | zero => simp [Decimal.zeros]
  | succ k ih =>
      have base : 10 ≤ n * 10 ^ (k + 1) := by
        have := Nat.mul_pos positive (Nat.pow_pos (n := k) (show 0 < 10 by decide))
        rw [Nat.pow_succ, ← Nat.mul_assoc]
        omega
      rw [Nat.toDigits_of_base_le (by decide) base, Nat.pow_succ, ← Nat.mul_assoc,
        Nat.mul_div_cancel _ (by decide), Nat.mul_mod_left, ih, Decimal.zeros, Decimal.zeros,
        List.replicate_succ', List.append_assoc]
      rfl

theorem digitCount_mul_pow {n : Nat} (positive : 0 < n) (k : Nat) :
    digitCount (n * 10 ^ k) = digitCount n + k := by
  rw [digitCount_eq, digitCount_eq, toDigits_mul_pow positive, List.length_append, Decimal.zeros,
    List.length_replicate]

namespace Decimal

def magnitude (d : Decimal) : ℚ := d.coefficient * (10 : ℚ) ^ d.exponent

/-- The number that a finite decimal denotes. -/
def value (d : Decimal) : ℚ := if d.negative then -d.magnitude else d.magnitude

theorem magnitude_eq_iff {a b : Decimal} (le : a.exponent ≤ b.exponent) :
    a.magnitude = b.magnitude ↔
      a.coefficient = b.coefficient * 10 ^ (b.exponent - a.exponent).toNat := by
  have base : (10 : ℚ) ^ b.exponent = 10 ^ (b.exponent - a.exponent).toNat * 10 ^ a.exponent := by
    rw [← zpow_natCast, ← zpow_add₀ (by norm_num), Int.toNat_of_nonneg (by omega)]
    congr 1
    omega
  have nonzero : (10 : ℚ) ^ a.exponent ≠ 0 := zpow_ne_zero _ (by norm_num)
  rw [magnitude, magnitude, base, ← mul_assoc, mul_left_inj' nonzero]
  exact_mod_cast Iff.rfl

section

variable {d : Decimal} (finite : d.form = .finite)

include finite

theorem isZero_iff : d.isZero = true ↔ d.coefficient = 0 := by
  rw [isZero, isFinite, finite]
  simp

theorem sign_eq_zero_iff : d.sign = 0 ↔ d.coefficient = 0 := by
  rw [← isZero_iff finite, sign]
  cases d.isZero <;> cases d.negative <;> simp

theorem magnitude_of_sign_zero (zero : d.sign = 0) : d.magnitude = 0 := by
  rw [magnitude, (sign_eq_zero_iff finite).mp zero, Int.cast_zero, zero_mul]

theorem sign_of_nonzero (nonzero : d.coefficient ≠ 0) : d.sign = if d.negative then -1 else 1 := by
  rw [sign, if_neg (mt (isZero_iff finite).mp nonzero)]

theorem negative_eq (nonzero : d.coefficient ≠ 0) : d.negative = decide (d.sign < 0) := by
  rw [sign_of_nonzero finite nonzero]
  cases d.negative <;> rfl

end

section

variable {d : Decimal} (regular : d.Regular)

include regular

theorem Regular.isZero_iff : d.isZero = true ↔ d.coefficient = 0 := Decimal.isZero_iff regular.finite

theorem Regular.magnitude_pos (nonzero : d.coefficient ≠ 0) : 0 < d.magnitude := by
  have positive : (0 : ℚ) < d.coefficient := by
    have := regular.natural
    exact_mod_cast (show 0 < d.coefficient by omega)
  exact mul_pos positive (zpow_pos (by norm_num) _)

theorem Regular.sign_eq_zero_iff : d.sign = 0 ↔ d.coefficient = 0 :=
  Decimal.sign_eq_zero_iff regular.finite

theorem Regular.sign_nonzero (nonzero : d.coefficient ≠ 0) :
    d.sign = if d.negative then -1 else 1 := sign_of_nonzero regular.finite nonzero

theorem Regular.value_eq : d.value = d.sign * d.magnitude := by
  by_cases none : d.coefficient = 0
  · have nothing : d.magnitude = 0 := by rw [magnitude, none, Int.cast_zero, zero_mul]
    rw [value, nothing, mul_zero, neg_zero, ite_self]
  · rw [value, regular.sign_nonzero none]
    split
    · rw [Int.cast_neg, Int.cast_one, neg_one_mul]
    · rw [Int.cast_one, one_mul]

theorem Regular.sign_value : (SignType.sign d.value : ℤ) = d.sign := by
  by_cases none : d.coefficient = 0
  · have zero := regular.sign_eq_zero_iff.mpr none
    rw [regular.value_eq, zero, Int.cast_zero, zero_mul, sign_zero]
    rfl
  · have positive := regular.magnitude_pos none
    rw [value, regular.sign_nonzero none]
    split
    · rw [sign_neg (neg_neg_of_pos positive)]
      rfl
    · rw [sign_pos positive]
      rfl

end

theorem adjusted_eq {a b : Decimal} (le : a.exponent ≤ b.exponent) (nonzero : b.coefficient ≠ 0)
    (same : a.magnitude = b.magnitude) : a.adjusted = b.adjusted := by
  have scaled := (magnitude_eq_iff le).mp same
  have size : a.size = b.size + (b.exponent - a.exponent).toNat := by
    rw [size, scaled, Int.natAbs_mul, Int.natAbs_pow]
    exact digitCount_mul_pow (Int.natAbs_pos.mpr nonzero) _
  rw [adjusted, adjusted, size]
  omega

theorem compareMagnitude_eq_iff {a b : Decimal} (first : a.coefficient ≠ 0)
    (second : b.coefficient ≠ 0) : a.compareMagnitude b = .eq ↔ a.magnitude = b.magnitude := by
  rw [compareMagnitude]
  split
  · rename_i same
    rw [compare_eq_iff_eq, magnitude_eq_iff (Int.le_of_eq same), same]
    simp
  · have aligned : Ord.compare (a.align b).1 (a.align b).2.1 = .eq ↔ a.magnitude = b.magnitude := by
      rw [compare_eq_iff_eq, align]
      split
      · rename_i le
        rw [magnitude_eq_iff le]
        exact_mod_cast Iff.rfl
      · rename_i above
        rw [eq_comm (a := a.magnitude), magnitude_eq_iff (by omega), eq_comm]
        exact_mod_cast Iff.rfl
    have led : a.magnitude = b.magnitude → a.adjusted = b.adjusted := by
      intro same
      rcases Int.le_total a.exponent b.exponent with le | ge
      · exact adjusted_eq le second same
      · exact (adjusted_eq ge first same.symm).symm
    cases decided : Ord.compare a.adjusted b.adjusted with
    | eq => exact aligned
    | lt | gt =>
        dsimp only
        refine ⟨fun equal => absurd equal (by decide), fun same => ?_⟩
        rw [compare_eq_iff_eq.mpr (led same)] at decided
        cases decided

theorem compare_eq_iff_parts {a b : Decimal} (first : a.form = .finite) (second : b.form = .finite) :
    a.compare b = .eq ↔ a.sign = b.sign ∧ a.magnitude = b.magnitude := by
  have finite : (a.form == .infinite) = false ∧ (b.form == .infinite) = false := by
    rw [first, second]
    exact ⟨rfl, rfl⟩
  by_cases signs : a.sign = b.sign
  · rw [compare, compare_eq_iff_eq.mpr signs, finite.1, finite.2]
    simp only [signs, true_and]
    split
    · rename_i zero
      rw [magnitude_of_sign_zero first (signs.trans zero), magnitude_of_sign_zero second zero]
      exact iff_of_true rfl rfl
    · rename_i nonzero
      rw [← compareMagnitude_eq_iff (mt (sign_eq_zero_iff first).mpr (signs ▸ nonzero))
        (mt (sign_eq_zero_iff second).mpr nonzero)]
      split
      · rw [Ordering.swap_eq_eq]
      · rfl
  · refine iff_of_false (fun equal => ?_) fun parts => signs parts.1
    rw [compare] at equal
    split at equal
    · rename_i same
      exact signs (compare_eq_iff_eq.mp same)
    · rename_i differ
      exact differ equal

theorem Regular.value_eq_iff {a b : Decimal} (first : a.Regular) (second : b.Regular) :
    a.value = b.value ↔ a.sign = b.sign ∧ a.magnitude = b.magnitude := by
  constructor
  · intro same
    have signs : a.sign = b.sign := by rw [← first.sign_value, ← second.sign_value, same]
    refine ⟨signs, ?_⟩
    by_cases zero : a.sign = 0
    · rw [magnitude_of_sign_zero first.finite zero, magnitude_of_sign_zero second.finite (signs ▸ zero)]
    · rwa [first.value_eq, second.value_eq, ← signs, mul_right_inj' (Int.cast_ne_zero.mpr zero)] at same
  · rintro ⟨signs, magnitudes⟩
    rw [first.value_eq, second.value_eq, signs, magnitudes]

theorem compare_eq_iff {a b : Decimal} (first : a.Regular) (second : b.Regular) :
    a.compare b = .eq ↔ a.value = b.value :=
  (compare_eq_iff_parts first.finite second.finite).trans (first.value_eq_iff second).symm

theorem magnitude_int (n : Int) : ({ coefficient := n } : Decimal).magnitude = n := by
  rw [magnitude, zpow_zero, mul_one]

theorem magnitude_eq_int_iff {d : Decimal} (low : d.exponent ≤ 0) {n : Int} :
    d.magnitude = n ↔ d.coefficient = n * 10 ^ (-d.exponent).toNat := by
  have scaled := magnitude_eq_iff (b := { coefficient := n }) low
  rwa [magnitude_int, Int.zero_sub] at scaled

theorem magnitude_of_high {d : Decimal} (high : 0 ≤ d.exponent) :
    d.magnitude = (d.coefficient * 10 ^ d.exponent.toNat : Int) := by
  obtain ⟨k, exponent⟩ := Int.eq_ofNat_of_zero_le high
  rw [magnitude, exponent, zpow_natCast, Int.toNat_natCast]
  push_cast
  rfl

theorem regular_ofInt (n : Int) : (ofInt n).Regular := ⟨rfl, Int.natCast_nonneg _⟩

theorem value_ofInt (n : Int) : (ofInt n).value = n := by
  have size : (ofInt n).magnitude = (n.natAbs : Int) := magnitude_int _
  rw [value, size, ofInt]
  by_cases below : n < 0
  · rw [if_pos (decide_eq_true below), Int.ofNat_natAbs_of_nonpos (Int.le_of_lt below), Int.cast_neg,
      neg_neg]
  · rw [if_neg (by simpa using below), Int.natAbs_of_nonneg (Int.not_lt.mp below)]

theorem value_eq_int_iff {d : Decimal} {n : Int} :
    d.value = n ↔ d.magnitude = (if d.negative then -n else n : Int) := by
  rw [value]
  split
  · rw [Int.cast_neg, neg_eq_iff_eq_neg]
  · rfl

theorem Regular.integer?_eq_some_iff {d : Decimal} (regular : d.Regular) {n : Int} :
    d.integer? = some n ↔ d.value = n := by
  have finite : d.isFinite = true := beq_iff_eq.mpr regular.finite
  have whole : ∀ q : Int, d.magnitude = q →
      (some (if d.negative then -q else q) = some n ↔ d.value = n) := by
    intro q same
    rw [value_eq_int_iff, same, Option.some_inj, Int.cast_inj]
    split
    · exact neg_eq_iff_eq_neg
    · rfl
  rw [integer?, if_pos finite]
  simp only [Nat.pow_eq, Nat.cast_pow, Nat.cast_ofNat]
  split
  · rename_i high
    exact whole _ (magnitude_of_high high)
  · rename_i low
    have below := Int.le_of_lt (Int.not_le.mp low)
    split
    · rename_i divides
      have cut := Int.tdiv_mul_cancel (Int.dvd_of_tmod_eq_zero divides)
      exact whole _ ((magnitude_eq_int_iff below).mpr cut.symm)
    · rename_i remains
      refine ⟨nofun, fun same => ?_⟩
      rw [(magnitude_eq_int_iff below).mp (value_eq_int_iff.mp same), Int.mul_tmod_left] at remains
      exact absurd rfl remains

end Decimal

end Reckoner
