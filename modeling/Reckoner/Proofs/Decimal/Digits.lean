import Mathlib.Tactic.Ring
import Reckoner.Decimal.Literal

/-!
Runs of decimal digits. Long numbers are written and read in groups of digits; the text is that of the
number digit by digit, and the number of digits is counted right.
-/

namespace Reckoner

namespace Decimal

def padded (width n : Nat) : List Char :=
  zeros (width - (Nat.toDigits 10 n).length) ++ Nat.toDigits 10 n

theorem padded_succ {width n : Nat} (positive : 0 < width) :
    padded (width + 1) n = padded width (n / 10) ++ [(n % 10).digitChar] := by
  by_cases small : n < 10
  · rw [padded, padded, Nat.toDigits_of_lt_base small, Nat.div_eq_of_lt small, Nat.toDigits_zero,
      Nat.mod_eq_of_lt small]
    obtain ⟨k, rfl⟩ := Nat.exists_eq_succ_of_ne_zero (Nat.ne_of_gt positive)
    simp [zeros, List.replicate_succ']
  · rw [padded, padded, Nat.toDigits_of_base_le (by decide) (Nat.le_of_not_lt small),
      List.length_append, List.length_singleton, Nat.add_sub_add_right, List.append_assoc]

theorem toDigits_split {width : Nat} (positive : 0 < width) {n : Nat} (large : 10 ^ width ≤ n) :
    Nat.toDigits 10 n = Nat.toDigits 10 (n / 10 ^ width) ++ padded width (n % 10 ^ width) := by
  induction width, positive using Nat.le_induction generalizing n with
  | base =>
      rw [Nat.toDigits_of_base_le (by decide) (by simpa using large), padded, pow_one,
        Nat.toDigits_of_lt_base (Nat.mod_lt n (by decide))]
      rfl
  | succ width positive ih =>
      have power : 10 ^ (width + 1) = 10 * 10 ^ width := Nat.pow_succ'
      have least : 10 ≤ n := by
        have := Nat.one_le_pow width 10 (by decide)
        omega
      have above : 10 ^ width ≤ n / 10 := by omega
      have low : n % 10 ^ (width + 1) / 10 = n / 10 % 10 ^ width := by
        rw [power, Nat.mod_mul_right_div_self]
      have last : n % 10 ^ (width + 1) % 10 = n % 10 := by
        rw [power, Nat.mod_mul_right_mod]
      rw [Nat.toDigits_of_base_le (by decide) least, ih above, padded_succ positive, low, last,
        Nat.div_div_eq_div_mul, ← power, List.append_assoc]

theorem digitsBefore_eq (fuel n : Nat) (tail : List Char) :
    digitsBefore fuel n tail = Nat.toDigits 10 n ++ tail := by
  induction fuel generalizing n tail with
  | zero => rfl
  | succ fuel ih =>
      rw [digitsBefore]
      split
      · rfl
      · rename_i large
        rw [Nat.pow_eq] at large ⊢
        rw [ih, toDigits_split (by decide : 0 < groupSize) (Nat.le_of_not_lt large),
          List.append_assoc, List.append_assoc, padded, List.append_assoc]

theorem digitsOf_eq (n : Nat) : digitsOf n = Nat.toDigits 10 n := by
  rw [digitsOf, digitsBefore_eq, List.append_nil]

end Decimal

theorem groupValue_eq (digits : List Char) : groupValue digits = Nat.ofDigitChars 10 digits 0 := by
  rw [groupValue, Nat.ofDigitChars_eq_foldl]
  congr 1
  funext n c
  rw [Nat.mul_comm]
  rfl

theorem appendDigits_eq {fuel n : Nat} {digits : List Char} (enough : digits.length ≤ fuel) :
    appendDigits fuel n digits = Nat.ofDigitChars 10 digits n := by
  induction fuel generalizing n digits with
  | zero =>
      obtain rfl := List.eq_nil_of_length_eq_zero (Nat.le_zero.mp enough)
      rfl
  | succ fuel ih =>
      rw [appendDigits]
      split
      · rename_i empty
        obtain rfl := List.isEmpty_iff.mp empty
        rfl
      · rename_i more
        have fewer : (digits.drop Decimal.groupSize).length ≤ fuel := by
          rw [List.length_drop, Decimal.groupSize]
          omega
        dsimp only
        rw [ih fewer, groupValue_eq, Nat.pow_eq, Nat.mul_comm,
          ← Nat.ofDigitChars_eq_ofDigitChars_zero, ← Nat.ofDigitChars_append, List.take_append_drop]

theorem digitsValue_eq (digits : List Char) :
    digitsValue digits = Nat.ofDigitChars 10 digits 0 := appendDigits_eq (Nat.le_refl _)

theorem climbDigits_eq {n fuel start : Nat} (positive : 0 < start)
    (low : start ≤ (Nat.toDigits 10 n).length) (high : (Nat.toDigits 10 n).length ≤ start + fuel) :
    climbDigits n fuel start = (Nat.toDigits 10 n).length := by
  induction fuel generalizing start with
  | zero => exact Nat.le_antisymm low high
  | succ fuel ih =>
      have fits := Nat.length_toDigits_le_iff (b := 10) (n := n) (by decide) positive
      rw [climbDigits, Nat.pow_eq]
      split
      · rename_i small
        exact Nat.le_antisymm low (fits.mpr small)
      · rename_i large
        have longer := mt fits.mp large
        exact ih (Nat.succ_pos _) (by omega) (by omega)

theorem digitCount_eq (n : Nat) : digitCount n = (Nat.toDigits 10 n).length := by
  have some := Nat.length_toDigits_pos (b := 10) (n := n)
  have fits : n < 10 ^ (n.log2 + 1) :=
    Nat.lt_of_lt_of_le Nat.lt_log2_self (Nat.pow_le_pow_left (by decide) _)
  have bound := (Nat.length_toDigits_le_iff (b := 10) (by decide) (Nat.succ_pos _)).mpr fits
  rw [digitCount]
  generalize n.log2 * 30102 / 100000 = guess
  rw [Nat.pow_eq]
  split
  · rename_i large
    refine climbDigits_eq (Nat.succ_pos _) ?_ (by omega)
    by_contra short
    have few : (Nat.toDigits 10 n).length ≤ guess := by omega
    have small := (Nat.length_toDigits_le_iff (b := 10) (by decide) (by omega)).mp few
    omega
  · exact climbDigits_eq Nat.one_pos some (by omega)

theorem digitCount_pos (n : Nat) : 0 < digitCount n := by
  rw [digitCount_eq]
  exact Nat.length_toDigits_pos

theorem digitCount_le {n k : Nat} (positive : 0 < k) (small : n < 10 ^ k) : digitCount n ≤ k := by
  rw [digitCount_eq]
  exact (Nat.length_toDigits_le_iff (by decide) positive).mpr small

theorem ofDigitChars_lt {digits : List Char} (all : ∀ c ∈ digits, c.isDigit = true) :
    Nat.ofDigitChars 10 digits 0 < 10 ^ digits.length := by
  induction digits with
  | nil => exact Nat.one_pos
  | cons c rest ih =>
      have others := ih fun d member => all d (List.mem_cons_of_mem c member)
      obtain ⟨-, nine⟩ := Char.isDigit_iff_toNat.mp (all c List.mem_cons_self)
      have digit : c.toNat - '0'.toNat ≤ 9 := by
        have : '9'.toNat = '0'.toNat + 9 := rfl
        omega
      rw [Nat.ofDigitChars_cons, Nat.ofDigitChars_eq_ofDigitChars_zero, List.length_cons, Nat.pow_succ']
      have := Nat.mul_le_mul_left (10 ^ rest.length) digit
      rw [Nat.mul_zero, Nat.zero_add]
      omega

end Reckoner
