import Mathlib.Data.Int.Log
import Mathlib.Data.Rat.Floor
import Mathlib.Tactic.Linarith
import Mathlib.Tactic.Positivity
import Mathlib.Tactic.Ring

/-!
Rounding, said of rational numbers alone. A number is rounded in one step to the nearest of those with
a given count of significant digits; of two that are equally near, the last digit of the answer is even.
-/

namespace Reckoner

/-- No integer is nearer to the number, and the integer is even if another one is as near. -/
def IsNearest (q : ℚ) (n : ℤ) : Prop := |q - n| < 1 / 2 ∨ |q - n| = 1 / 2 ∧ Even n

def nearestEven (q : ℚ) : ℤ :=
  if q - ⌊q⌋ < 1 / 2 then ⌊q⌋
  else if 1 / 2 < q - ⌊q⌋ then ⌊q⌋ + 1
  else if Even ⌊q⌋ then ⌊q⌋ else ⌊q⌋ + 1

theorem isNearest_nearestEven (q : ℚ) : IsNearest q (nearestEven q) := by
  have low := Int.floor_le q
  have high := Int.lt_floor_add_one q
  rw [nearestEven]
  split
  · left
    rw [abs_of_nonneg (by linarith)]
    assumption
  · split
    · left
      push_cast
      rw [abs_of_neg (by linarith)]
      linarith
    · have half : q - ⌊q⌋ = 1 / 2 := by linarith
      split
      · rename_i even
        exact .inr ⟨by rw [half, abs_of_pos (by norm_num)], even⟩
      · rename_i odd
        right
        push_cast
        refine ⟨?_, (Int.not_even_iff_odd.mp odd).add_one⟩
        rw [← sub_sub, half, abs_of_neg (by norm_num)]
        norm_num

namespace IsNearest

variable {q : ℚ} {n m : ℤ}

theorem distance_le (nearest : IsNearest q n) : |q - n| ≤ 1 / 2 := by
  rcases nearest with near | ⟨half, -⟩
  · exact near.le
  · exact half.le

theorem even (nearest : IsNearest q n) (half : |q - n| = 1 / 2) : Even n := by
  rcases nearest with near | ⟨-, even⟩
  · exact absurd half near.ne
  · exact even

theorem not_below (first : IsNearest q n) (second : IsNearest q m) : ¬n < m := by
  intro below
  have apart : (n : ℚ) + 1 ≤ m := by exact_mod_cast below
  have low := (abs_le.mp second.distance_le).1
  have high := (abs_le.mp first.distance_le).2
  have left : q - n = 1 / 2 := by linarith
  have right : q - m = -(1 / 2) := by linarith
  have next : m = n + 1 := by
    have gap : (m : ℚ) = (n + 1 : ℤ) := by
      push_cast
      linarith
    exact_mod_cast gap
  have even := first.even (by rw [left, abs_of_pos (by norm_num)])
  have odd := second.even (by rw [right, abs_neg, abs_of_pos (by norm_num)])
  rw [next] at odd
  exact Int.not_even_iff_odd.mpr even.add_one odd

theorem unique (first : IsNearest q n) (second : IsNearest q m) : n = m :=
  le_antisymm (not_lt.mp (second.not_below first)) (not_lt.mp (first.not_below second))

theorem eq_nearestEven (nearest : IsNearest q n) : nearestEven q = n :=
  (isNearest_nearestEven q).unique nearest

theorem neg (nearest : IsNearest q n) : IsNearest (-q) (-n) := by
  have same : |-q - ((-n : ℤ) : ℚ)| = |q - n| := by
    rw [Int.cast_neg, ← neg_add', abs_neg, ← sub_eq_add_neg]
  rw [IsNearest, same]
  exact nearest.imp id fun ⟨half, even⟩ => ⟨half, even.neg⟩

theorem abs_sub_le (nearest : IsNearest q n) (m : ℤ) : |n - q| ≤ |m - q| := by
  by_cases same : m = n
  · rw [same]
  · have apart : (1 : ℚ) ≤ |(m : ℚ) - n| := by
      exact_mod_cast Int.one_le_abs (sub_ne_zero.mpr same)
    have near := nearest.distance_le
    have path := abs_add_le ((m : ℚ) - q) (q - n)
    rw [sub_add_sub_cancel] at path
    rw [abs_sub_comm]
    linarith

end IsNearest

theorem nearestEven_neg (q : ℚ) : nearestEven (-q) = -nearestEven q :=
  (isNearest_nearestEven q).neg.eq_nearestEven

theorem nearestEven_intCast (n : ℤ) : nearestEven n = n := by
  refine IsNearest.eq_nearestEven (.inl ?_)
  rw [sub_self, abs_zero]
  norm_num

/-- What the last of the given count of digits of a number stands for. -/
def lastPlace (digits : ℕ) (q : ℚ) : ℚ := 10 ^ (Int.log 10 |q| + 1 - digits)

/-- The number with the given count of significant digits that is nearest. -/
def rounded (digits : ℕ) (q : ℚ) : ℚ := nearestEven (q / lastPlace digits q) * lastPlace digits q

def Short (digits : ℕ) (q : ℚ) : Prop := ∃ n e : ℤ, |n| < 10 ^ digits ∧ q = n * 10 ^ e

section

variable {digits : ℕ} {q : ℚ}

theorem lastPlace_pos (digits : ℕ) (q : ℚ) : 0 < lastPlace digits q := zpow_pos (by norm_num) _

@[simp] theorem rounded_zero (digits : ℕ) : rounded digits 0 = 0 := by
  have zero : nearestEven 0 = 0 := nearestEven_intCast 0
  rw [rounded, zero_div, zero, Int.cast_zero, zero_mul]

theorem rounded_neg (digits : ℕ) (q : ℚ) : rounded digits (-q) = -rounded digits q := by
  have same : lastPlace digits (-q) = lastPlace digits q := by rw [lastPlace, lastPlace, abs_neg]
  rw [rounded, rounded, same, neg_div, nearestEven_neg, Int.cast_neg, neg_mul]

theorem rounded_eq {k n : ℤ} (low : 10 ^ k ≤ |q|) (high : |q| < 10 ^ (k + 1))
    (nearest : IsNearest (q / 10 ^ (k + 1 - digits)) n) :
    rounded digits q = n * 10 ^ (k + 1 - digits) := by
  have positive : 0 < |q| := lt_of_lt_of_le (zpow_pos (by norm_num) k) low
  have leading : Int.log 10 |q| = k := by
    apply le_antisymm
    · have below := (Int.lt_zpow_iff_log_lt (b := 10) (by norm_num) positive).mp (by exact_mod_cast high)
      omega
    · exact (Int.zpow_le_iff_le_log (b := 10) (by norm_num) positive).mp (by exact_mod_cast low)
  rw [rounded, lastPlace, leading, nearest.eq_nearestEven]

theorem exists_multiple {p : ℤ} (above : Int.log 10 |q| + 1 - digits ≤ p) :
    ∃ m : ℤ, (10 : ℚ) ^ p = m * lastPlace digits q := by
  obtain ⟨j, gap⟩ := Int.eq_ofNat_of_zero_le (Int.sub_nonneg_of_le above)
  refine ⟨10 ^ j, ?_⟩
  rw [lastPlace, Int.cast_pow, Int.cast_ofNat, ← zpow_natCast, ← zpow_add₀ (by norm_num)]
  congr 1
  omega

theorem abs_rounded_sub_le_multiple (m : ℤ) :
    |rounded digits q - q| ≤ |m * lastPlace digits q - q| := by
  have positive := lastPlace_pos digits q
  have scaled : ∀ x : ℚ, |x * lastPlace digits q - q| =
      |x - q / lastPlace digits q| * lastPlace digits q := by
    intro x
    rw [← abs_of_pos positive, ← abs_mul, abs_of_pos positive, sub_mul,
      div_mul_cancel₀ _ positive.ne']
  rw [rounded, scaled, scaled]
  exact mul_le_mul_of_nonneg_right ((isNearest_nearestEven _).abs_sub_le m) positive.le

theorem abs_rounded_sub_le_leading (some : 0 < digits) (nonzero : q ≠ 0) :
    |rounded digits q - q| ≤ |q| - 10 ^ Int.log 10 |q| := by
  have leading : (10 : ℚ) ^ Int.log 10 |q| ≤ |q| := by
    exact_mod_cast Int.zpow_log_le_self (b := 10) (r := |q|) (by norm_num) (abs_pos.mpr nonzero)
  obtain ⟨m, power⟩ : ∃ m : ℤ, (10 : ℚ) ^ Int.log 10 |q| = m * lastPlace digits q :=
    exists_multiple (by omega)
  generalize (10 : ℚ) ^ Int.log 10 |q| = reach at leading power ⊢
  rcases le_total 0 q with above | below
  · have near : |rounded digits q - q| ≤ |m * lastPlace digits q - q| := abs_rounded_sub_le_multiple m
    rw [abs_of_nonneg above] at leading ⊢
    rwa [← power, abs_sub_comm reach, abs_of_nonneg (sub_nonneg.mpr leading)] at near
  · have near : |rounded digits q - q| ≤ |(-m : ℤ) * lastPlace digits q - q| :=
      abs_rounded_sub_le_multiple (-m)
    rw [abs_of_nonpos below] at leading ⊢
    have order : 0 ≤ -reach - q := by linarith
    rw [Int.cast_neg, neg_mul, ← power, abs_of_nonneg order] at near
    linarith

/-- The rounded number is as near as any with so many digits. -/
theorem abs_rounded_sub_le (some : 0 < digits) {c : ℚ} (short : Short digits c) :
    |rounded digits q - q| ≤ |c - q| := by
  by_cases zero : q = 0
  · rw [zero, rounded_zero, sub_self, abs_zero]
    exact abs_nonneg _
  obtain ⟨n, e, bound, rfl⟩ := short
  by_cases above : Int.log 10 |q| + 1 - digits ≤ e
  · obtain ⟨m, power⟩ := exists_multiple above
    rw [power, ← mul_assoc, ← Int.cast_mul]
    exact abs_rounded_sub_le_multiple (n * m)
  · have step : (0 : ℚ) < 10 ^ e := zpow_pos (by norm_num) e
    have reach : |(n : ℚ) * 10 ^ e| ≤ 10 ^ Int.log 10 |q| := by
      have size : |(n : ℚ)| ≤ 10 ^ digits := by exact_mod_cast bound.le
      calc |(n : ℚ) * 10 ^ e| = |(n : ℚ)| * 10 ^ e := by rw [abs_mul, abs_of_pos step]
        _ ≤ 10 ^ digits * 10 ^ e := mul_le_mul_of_nonneg_right size step.le
        _ = 10 ^ ((digits : ℤ) + e) := by rw [← zpow_natCast, ← zpow_add₀ (by norm_num)]
        _ ≤ 10 ^ Int.log 10 |q| := zpow_le_zpow_right₀ (by norm_num) (by omega)
    have near := abs_rounded_sub_le_leading some zero
    have far := abs_sub_abs_le_abs_sub q ((n : ℚ) * 10 ^ e)
    rw [abs_sub_comm q] at far
    linarith

theorem abs_nearestEven_le (digits : ℕ) (q : ℚ) : |nearestEven (q / lastPlace digits q)| ≤ 10 ^ digits := by
  have positive := lastPlace_pos digits q
  have below : |q / lastPlace digits q| < 10 ^ digits := by
    have next : |q| < 10 ^ (Int.log 10 |q| + 1) := by
      exact_mod_cast Int.lt_zpow_succ_log_self (b := 10) (by norm_num) |q|
    rw [abs_div, abs_of_pos positive, div_lt_iff₀ positive, lastPlace, ← zpow_natCast,
      ← zpow_add₀ (by norm_num)]
    rwa [add_sub_cancel]
  have near := (isNearest_nearestEven (q / lastPlace digits q)).distance_le
  have path := abs_sub_abs_le_abs_sub (nearestEven (q / lastPlace digits q) : ℚ) (q / lastPlace digits q)
  rw [abs_sub_comm] at near
  have bound : |(nearestEven (q / lastPlace digits q) : ℚ)| < 10 ^ digits + 1 := by linarith
  exact Int.lt_add_one_iff.mp (by exact_mod_cast bound)

theorem short_of_le (some : 0 < digits) {n : ℤ} (bound : |n| ≤ 10 ^ digits) (e : ℤ) :
    Short digits (n * 10 ^ e) := by
  rcases bound.lt_or_eq with fits | carried
  · exact ⟨n, e, fits, rfl⟩
  · obtain ⟨k, rfl⟩ : ∃ k, digits = k + 1 := ⟨digits - 1, by omega⟩
    have fewer : (10 : ℤ) ^ k < 10 ^ (k + 1) := pow_lt_pow_right₀ (by norm_num) (Nat.lt_succ_self k)
    have size : |(10 : ℤ) ^ k| = 10 ^ k := abs_of_pos (by positivity)
    rcases eq_or_eq_neg_of_abs_eq carried with rfl | rfl
    · refine ⟨10 ^ k, e + 1, by rwa [size], ?_⟩
      rw [zpow_add_one₀ (by norm_num)]
      push_cast
      ring
    · refine ⟨-10 ^ k, e + 1, by rwa [abs_neg, size], ?_⟩
      rw [zpow_add_one₀ (by norm_num)]
      push_cast
      ring

structure Nearest (digits : ℕ) (q r : ℚ) : Prop where
  short : Short digits r
  least : ∀ c, Short digits c → |r - q| ≤ |c - q|

theorem nearest_rounded (some : 0 < digits) (q : ℚ) : Nearest digits q (rounded digits q) :=
  ⟨short_of_le some (abs_nearestEven_le digits q) _, fun _ short => abs_rounded_sub_le some short⟩

theorem rounded_of_short (some : 0 < digits) (short : Short digits q) : rounded digits q = q := by
  have near := abs_rounded_sub_le some short (q := q)
  rw [sub_self, abs_zero] at near
  exact sub_eq_zero.mp (abs_eq_zero.mp (le_antisymm near (abs_nonneg _)))

end

end Reckoner
