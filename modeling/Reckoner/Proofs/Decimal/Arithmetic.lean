import Mathlib.Tactic.FieldSimp
import Reckoner.Proofs.Decimal.Rounding
import Reckoner.Proofs.Decimal.Value

/-!
The arithmetic of scripts against that of rational numbers. A sum, difference, product or quotient is
rounded once from the exact result, whatever the digits and exponents its operands are written with.
-/

namespace Reckoner

theorem lt_pow_digitCount (n : Nat) : n < 10 ^ digitCount n :=
  (Nat.length_toDigits_le_iff (by decide) (digitCount_pos n)).mp (Nat.le_of_eq (digitCount_eq n).symm)

theorem pow_le_of_lt_digitCount {n k : Nat} (fewer : k < digitCount n) (positive : 0 < n) :
    10 ^ k ≤ n := by
  by_contra small
  rcases Nat.eq_zero_or_pos k with rfl | some
  · rw [Nat.pow_zero] at small
    omega
  · have short := digitCount_le some (Nat.not_le.mp small)
    omega

theorem Tie.shorten_natCast (tie : Tie) (n d : Nat) : tie.shorten n d = (tie.divide n d : Nat) := by
  rw [Tie.shorten, if_neg (Int.not_lt.mpr (Int.natCast_nonneg n)), Int.toNat_natCast]

theorem raises_toEven_iff {q r d : Nat} :
    Tie.toEven.raises q r d = true ↔ d < 2 * r ∨ 2 * r = d ∧ q % 2 = 1 := by
  rw [Tie.raises]
  rcases Nat.lt_trichotomy (2 * r) d with below | same | above
  · rw [compare_lt_iff_lt.mpr below]
    simp only [Bool.false_eq_true, false_iff]
    omega
  · rw [compare_eq_iff_eq.mpr same]
    simp only [beq_iff_eq]
    omega
  · rw [compare_gt_iff_gt.mpr above]
    simp only [true_iff]
    omega

theorem isNearest_divide (n : Nat) {d : Nat} (positive : 0 < d) :
    IsNearest ((n : ℚ) / d) (Tie.toEven.divide n d : Nat) := by
  have scale : (0 : ℚ) < d := by exact_mod_cast positive
  have behind : (n : ℚ) / d - (n / d : Nat) = (n % d : Nat) / d := by
    rw [div_sub' scale.ne', div_left_inj' scale.ne', sub_eq_iff_eq_add']
    exact_mod_cast (Nat.div_add_mod n d).symm
  have nonneg : (0 : ℚ) ≤ ((n % d : Nat) : ℚ) / d := by positivity
  have rest : ((n % d : Nat) : ℚ) < d := by exact_mod_cast Nat.mod_lt n positive
  have raising := raises_toEven_iff (q := n / d) (r := n % d) (d := d)
  rw [Tie.divide]
  split
  · rename_i raised
    have ahead : (n : ℚ) / d - (n / d + 1 : Nat) = ((n % d : Nat) - d) / d := by
      rw [Nat.cast_succ, ← sub_sub, behind, sub_div, div_self scale.ne']
    have beneath : (((n % d : Nat) : ℚ) - d) / d < 0 := div_neg_of_neg_of_pos (by linarith) scale
    rw [IsNearest, Int.cast_natCast, ahead, abs_of_neg beneath, ← neg_div, neg_sub]
    rcases raising.mp raised with more | ⟨half, odd⟩
    · left
      have twice : (d : ℚ) < 2 * (n % d : Nat) := by exact_mod_cast more
      rw [div_lt_div_iff₀ scale two_pos]
      linarith
    · right
      have twice : (2 : ℚ) * (n % d : Nat) = d := by exact_mod_cast half
      refine ⟨?_, by rw [Int.even_coe_nat, Nat.even_iff]; omega⟩
      rw [div_eq_div_iff scale.ne' two_ne_zero]
      linarith
  · rename_i kept
    have small := mt raising.mpr kept
    rw [IsNearest, Int.cast_natCast, behind, abs_of_nonneg nonneg]
    by_cases half : 2 * (n % d) = d
    · right
      have twice : (2 : ℚ) * (n % d : Nat) = d := by exact_mod_cast half
      refine ⟨?_, by rw [Int.even_coe_nat, Nat.even_iff]; omega⟩
      rw [div_eq_div_iff scale.ne' two_ne_zero]
      linarith
    · left
      have less : 2 * (n % d) < d := by omega
      have twice : (2 : ℚ) * (n % d : Nat) < d := by exact_mod_cast less
      rw [div_lt_div_iff₀ scale two_pos]
      linarith

namespace Decimal

variable {a b d r : Decimal} {digits : Nat} (some : 0 < digits)

theorem rounded_signed (digits : Nat) (negative : Bool) (q : ℚ) :
    rounded digits (if negative then -q else q) =
      if negative then -rounded digits q else rounded digits q := by
  split
  · exact rounded_neg digits q
  · rfl

theorem value_zero (negative : Bool) (exponent : Int) : value { negative, exponent } = 0 := by
  simp [value, magnitude]

theorem Regular.value_eq_zero_iff (regular : d.Regular) : d.value = 0 ↔ d.isZero = true := by
  rw [regular.isZero_iff]
  constructor
  · intro none
    by_contra nonzero
    have positive := regular.magnitude_pos nonzero
    rw [value] at none
    split at none <;> linarith
  · intro none
    simp [value, magnitude, none]

theorem eq_of_place {parts : List Int} (placed : d.place parts = .ok r) :
    r = { d with exponent := parts.foldl (· + ·) 0 } := by
  rw [place] at placed
  split at placed
  · exact (Except.ok.inj placed).symm
  · cases placed

theorem place_ne_divisionByZero (d : Decimal) (parts : List Int) :
    d.place parts ≠ .error .divisionByZero := by
  intro failed
  rw [place] at failed
  split at failed <;> cases failed

include some in
theorem dropDigits_value (tie : Tie) (n : Int) (excess : Nat) :
    ((dropDigits tie digits n excess).1 : ℚ) * 10 ^ (dropDigits tie digits n excess).2 =
      tie.shorten n (10 ^ excess) * 10 ^ excess := by
  simp only [dropDigits, Nat.pow_eq]
  split
  · rename_i carried
    obtain ⟨k, rfl⟩ : ∃ k, digits = k + 1 := ⟨digits - 1, by omega⟩
    have cut : (((10 ^ (k + 1) : Nat) : Int)).tdiv 10 = (10 ^ k : Nat) := by
      rw [Nat.pow_succ, Nat.cast_mul]
      exact Int.mul_tdiv_cancel _ (by decide)
    rw [carried, cut]
    push_cast
    ring
  · rfl

theorem short_value (fits : d.coefficient.natAbs < 10 ^ digits) :
    Short digits d.value := by
  have bound : |d.coefficient| < 10 ^ digits := by
    rw [Int.abs_eq_natAbs]
    exact_mod_cast fits
  rw [value]
  split
  · exact ⟨-d.coefficient, d.exponent, by rwa [abs_neg], by rw [magnitude, Int.cast_neg, neg_mul]⟩
  · exact ⟨d.coefficient, d.exponent, bound, rfl⟩

theorem rounded_long {n : Nat} (positive : 0 < n) (long : digits ≤ digitCount n) (e : Int) :
    rounded digits (n * 10 ^ e) = Tie.toEven.divide n (10 ^ (digitCount n - digits)) *
      10 ^ (e + (digitCount n - digits : Nat)) := by
  have step : (0 : ℚ) < 10 ^ e := zpow_pos (by norm_num) e
  have low : (10 : ℚ) ^ (e + digitCount n - 1) ≤ |(n : ℚ) * 10 ^ e| := by
    have leading : (10 : ℚ) ^ (digitCount n - 1) ≤ n := by
      exact_mod_cast pow_le_of_lt_digitCount (Nat.sub_lt (digitCount_pos n) Nat.one_pos) positive
    rw [abs_of_nonneg (by positivity)]
    calc (10 : ℚ) ^ (e + digitCount n - 1) = 10 ^ (digitCount n - 1) * 10 ^ e := by
          rw [← zpow_natCast, ← zpow_add₀ (by norm_num), Nat.cast_sub (digitCount_pos n)]
          congr 1
          push_cast
          ring
      _ ≤ n * 10 ^ e := mul_le_mul_of_nonneg_right leading step.le
  have high : |(n : ℚ) * 10 ^ e| < 10 ^ (e + digitCount n - 1 + 1) := by
    have few : (n : ℚ) < 10 ^ digitCount n := by exact_mod_cast lt_pow_digitCount n
    rw [abs_of_nonneg (by positivity)]
    calc (n : ℚ) * 10 ^ e < 10 ^ digitCount n * 10 ^ e := mul_lt_mul_of_pos_right few step
      _ = 10 ^ (e + digitCount n - 1 + 1) := by
          rw [← zpow_natCast, ← zpow_add₀ (by norm_num)]
          congr 1
          ring
  have place : e + digitCount n - 1 + 1 - digits = e + (digitCount n - digits : Nat) := by omega
  have nearest : IsNearest ((n : ℚ) * 10 ^ e / 10 ^ (e + digitCount n - 1 + 1 - digits))
      (Tie.toEven.divide n (10 ^ (digitCount n - digits)) : Nat) := by
    have quotient : (n : ℚ) * 10 ^ e / 10 ^ (e + digitCount n - 1 + 1 - digits) =
        n / (10 ^ (digitCount n - digits) : Nat) := by
      rw [place, zpow_add₀ (by norm_num), zpow_natCast, mul_comm (10 ^ e), mul_div_mul_right _ _ step.ne']
      push_cast
      rfl
    rw [quotient]
    exact isNearest_divide n (Nat.pow_pos (by decide))
  rw [rounded_eq low high nearest, place, Int.cast_natCast]

include some in
theorem round_value (regular : d.Regular)
    (answered : round ⟨digits, .toEven⟩ d = .ok r) : r.value = rounded digits d.value := by
  obtain ⟨n, natural⟩ := Int.eq_ofNat_of_zero_le regular.natural
  have size : d.size = digitCount n := by rw [Decimal.size, natural, Int.natAbs_natCast]
  simp only [round, size] at answered
  split at answered
  · cases answered
  · split at answered
    · rename_i fits
      have short : d.coefficient.natAbs < 10 ^ digits := by
        rw [natural, Int.natAbs_natCast]
        exact Nat.lt_of_lt_of_le (lt_pow_digitCount n) (Nat.pow_le_pow_right (by decide) fits)
      rw [eq_of_place answered, rounded_of_short some (short_value short)]
      simp [value, magnitude]
    · rename_i long
      split at answered
      · cases answered
      · have positive : 0 < n := by
          by_contra none
          have one := digitCount_le (n := n) Nat.one_pos (by omega)
          omega
        have carried := dropDigits_value some .toEven d.coefficient (digitCount n - digits)
        rw [natural, Tie.shorten_natCast] at carried
        have rounds : r.magnitude = rounded digits d.magnitude := by
          rw [eq_of_place answered]
          simp only [magnitude, natural, List.foldl_cons, List.foldl_nil, Int.zero_add, Int.cast_natCast]
          rw [rounded_long positive (Nat.le_of_not_le long), zpow_add₀ (by norm_num),
            zpow_add₀ (by norm_num), zpow_natCast, zpow_natCast, mul_left_comm, carried,
            Int.cast_natCast, mul_left_comm]
        rw [value, value, rounded_signed, rounds, eq_of_place answered]

/-! Sums and differences -/

theorem align_value (a b : Decimal) :
    a.magnitude = (align a b).1 * 10 ^ (align a b).2.2 ∧
      b.magnitude = (align a b).2.1 * 10 ^ (align a b).2.2 := by
  have shift : ∀ {low high : Int}, low ≤ high →
      (10 : ℚ) ^ high = (Nat.pow 10 (high - low).toNat : Nat) * 10 ^ low := by
    intro low high le
    rw [Nat.pow_eq, Nat.cast_pow, Nat.cast_ofNat, ← zpow_natCast, ← zpow_add₀ (by norm_num),
      Int.toNat_of_nonneg (by omega), Int.sub_add_cancel]
  rw [align]
  split
  · rename_i le
    refine ⟨rfl, ?_⟩
    rw [magnitude, shift le, Int.cast_mul, Int.cast_natCast, mul_assoc]
  · rename_i above
    refine ⟨?_, rfl⟩
    rw [magnitude, shift (Int.le_of_lt (Int.not_le.mp above)), Int.cast_mul, Int.cast_natCast, mul_assoc]

theorem align_swap (a b : Decimal) :
    align b a = ((align a b).2.1, (align a b).1, (align a b).2.2) := by
  rw [align, align]
  rcases lt_trichotomy a.exponent b.exponent with below | same | above
  · rw [if_neg (Int.not_le.mpr below), if_pos (Int.le_of_lt below)]
  · simp [same]
  · rw [if_pos (Int.le_of_lt above), if_neg (Int.not_le.mpr above)]

theorem addSigned_value (xNegative : Bool) (x : Int) (yNegative : Bool) (y : Int) :
    (if (addSigned xNegative x yNegative y).1 then -(addSigned xNegative x yNegative y).2
      else (addSigned xNegative x yNegative y).2) =
      (if xNegative then -x else x) + (if yNegative then -y else y) := by
  rw [addSigned]
  split
  · rename_i same
    subst same
    cases xNegative
    · simp
    · simp
      omega
  · rename_i differ
    have other : yNegative = !xNegative := by
      cases xNegative <;> cases yNegative <;> simp_all
    subst other
    split
    · rename_i equal
      subst equal
      cases xNegative <;> simp
    · split <;> cases xNegative <;> simp <;> omega

theorem addSigned_comm (xNegative : Bool) (x : Int) (yNegative : Bool) (y : Int) :
    addSigned xNegative x yNegative y = addSigned yNegative y xNegative x := by
  rw [addSigned, addSigned]
  by_cases same : xNegative = yNegative
  · rw [if_pos same, if_pos same.symm, same, Int.add_comm]
  · have other : yNegative = !xNegative := by
      cases xNegative <;> cases yNegative <;> simp_all
    rw [if_neg same, if_neg (Ne.symm same), other]
    rcases lt_trichotomy x y with below | equal | above
    · simp [below, below.ne, below.ne', below.not_gt]
    · simp [equal]
    · simp [above, above.ne, above.ne', above.not_gt]

theorem value_signed (d : Decimal) (x e : Int) (scaled : d.magnitude = x * 10 ^ e) :
    d.value = (if d.negative then -x else x : Int) * 10 ^ e := by
  rw [value, scaled]
  split
  · rw [Int.cast_neg, neg_mul]
  · rfl

include some in
theorem addFinite_value (first : a.Regular) (second : b.Regular)
    (answered : addFinite ⟨digits, .toEven⟩ a b = .ok r) :
    r.value = rounded digits (a.value + b.value) := by
  obtain ⟨left, right⟩ := align_value a b
  have natural := align_nonneg first.natural second.natural
  rw [addFinite] at answered
  generalize align a b = aligned at *
  obtain ⟨x, y, e⟩ := aligned
  dsimp only at answered
  have sum := addSigned_value a.negative x b.negative y
  have positive := addSigned_nonneg a.negative b.negative natural.1 natural.2
  generalize addSigned a.negative x b.negative y = added at *
  obtain ⟨negative, coefficient⟩ := added
  split at answered
  · cases answered
  · rw [round_value some ⟨rfl, positive⟩ answered, value_signed _ coefficient e rfl, sum,
      value_signed a x e left, value_signed b y e right, ← add_mul, Int.cast_add]

theorem addFinite_comm (r : Rounding) (a b : Decimal) : addFinite r a b = addFinite r b a := by
  have gap : (b.exponent - a.exponent).natAbs = (a.exponent - b.exponent).natAbs := by omega
  rw [addFinite, addFinite, gap, align_swap a b]
  dsimp only
  rw [addSigned_comm]

/-! Products and quotients -/

theorem value_product (exponent : Int) (sum : a.exponent + b.exponent = exponent) :
    value { negative := a.negative != b.negative, coefficient := a.coefficient * b.coefficient, exponent } =
      a.value * b.value := by
  rw [value_signed a _ _ rfl, value_signed b _ _ rfl, mul_mul_mul_comm, ← zpow_add₀ (by norm_num), sum,
    ← Int.cast_mul, value_signed _ (a.coefficient * b.coefficient) exponent rfl]
  congr 2
  cases a.negative <;> cases b.negative <;> simp

include some in
theorem mulFinite_value (first : a.Regular) (second : b.Regular)
    (answered : mulFinite ⟨digits, .toEven⟩ a b = .ok r) :
    r.value = rounded digits (a.value * b.value) := by
  rw [mulFinite] at answered
  generalize placed : place _ _ = product at answered
  cases product with
  | error e => cases answered
  | ok p =>
      have exact_ := eq_of_place placed
      have regular : p.Regular := by
        rw [exact_]
        exact ⟨rfl, Int.mul_nonneg first.natural second.natural⟩
      rw [round_value some regular answered, exact_]
      congr 1
      exact value_product _ (by simp)

theorem mulFinite_comm (r : Rounding) (a b : Decimal) : mulFinite r a b = mulFinite r b a := by
  have signs : (a.negative != b.negative) = (b.negative != a.negative) := by
    cases a.negative <;> cases b.negative <;> rfl
  have parts : ∀ d : Decimal, d.place [a.exponent, b.exponent] = d.place [b.exponent, a.exponent] := by
    intro d
    simp [place, Int.add_comm a.exponent, Bool.and_comm (withinLimit a.exponent)]
  rw [mulFinite, mulFinite, signs, Int.mul_comm, parts]

theorem lt_ten_mul {n d : Nat} (same : digitCount n = digitCount d) (positive : 0 < d) : n < 10 * d := by
  have few := lt_pow_digitCount n
  have many := pow_le_of_lt_digitCount (Nat.sub_lt (digitCount_pos d) Nat.one_pos) positive
  have more := digitCount_pos d
  obtain ⟨k, count⟩ : ∃ k, digitCount d = k + 1 := ⟨digitCount d - 1, by omega⟩
  rw [same, count, Nat.pow_succ] at few
  rw [count, Nat.add_sub_cancel] at many
  omega

theorem alignQuotient_spec {n d : Nat} (some : 0 < n) (divisor : 0 < d) :
    ∃ m k shift, alignQuotient n d = (m, k, shift) ∧ 0 < k ∧ k ≤ m ∧ m < 10 * k ∧
      (n : ℚ) / d = m / k * 10 ^ (-shift) := by
  rw [alignQuotient]
  generalize gap : (digitCount d : Int) - digitCount n = shift
  simp only [Nat.pow_eq]
  have sizes : digitCount (n * 10 ^ shift.toNat) = digitCount (d * 10 ^ (-shift).toNat) := by
    rw [digitCount_mul_pow some, digitCount_mul_pow divisor]
    omega
  have quotient : (n : ℚ) / d =
      (n * 10 ^ shift.toNat : Nat) / (d * 10 ^ (-shift).toNat : Nat) * 10 ^ (-shift) := by
    have moved : (10 : ℚ) ^ (-shift) = 10 ^ (-shift).toNat / 10 ^ shift.toNat := by
      rw [← zpow_natCast, ← zpow_natCast, ← zpow_sub₀ (by norm_num)]
      congr 1
      omega
    have divides : (d : ℚ) ≠ 0 := by exact_mod_cast divisor.ne'
    rw [moved]
    push_cast
    field_simp
  have positive : 0 < n * 10 ^ shift.toNat := Nat.mul_pos some (Nat.pow_pos (by decide))
  have scale : 0 < d * 10 ^ (-shift).toNat := Nat.mul_pos divisor (Nat.pow_pos (by decide))
  generalize n * 10 ^ shift.toNat = m at *
  generalize d * 10 ^ (-shift).toNat = k at *
  have below := lt_ten_mul sizes scale
  have above := lt_ten_mul sizes.symm positive
  split
  · refine ⟨m * 10, k, shift + 1, rfl, scale, by omega, by omega, ?_⟩
    rw [quotient, neg_add, zpow_add₀ (by norm_num), zpow_neg_one]
    push_cast
    ring
  · exact ⟨m, k, shift, rfl, scale, by omega, below, quotient⟩

theorem value_quotient (a b : Decimal) :
    a.value / b.value = if a.negative != b.negative then -(a.magnitude / b.magnitude)
      else a.magnitude / b.magnitude := by
  rw [value, value]
  cases a.negative <;> cases b.negative <;> simp [div_neg, neg_div]

include some in
theorem rounded_quotient {m k : Nat} (positive : 0 < k) (low : k ≤ m)
    (high : m < 10 * k) (e : Int) :
    rounded digits ((m : ℚ) / k * 10 ^ e) =
      Tie.toEven.divide (m * 10 ^ (digits - 1)) k * 10 ^ (e - (digits - 1 : Nat)) := by
  have scale : (0 : ℚ) < k := by exact_mod_cast positive
  have step : (0 : ℚ) < 10 ^ e := zpow_pos (by norm_num) e
  have least : (1 : ℚ) ≤ m / k := by
    rw [le_div_iff₀ scale, one_mul]
    exact_mod_cast low
  have most : (m : ℚ) / k < 10 := by
    rw [div_lt_iff₀ scale]
    exact_mod_cast high
  have size : |(m : ℚ) / k * 10 ^ e| = m / k * 10 ^ e := abs_of_nonneg (by positivity)
  have place : e + 1 - digits = e - (digits - 1 : Nat) := by omega
  have nearest : IsNearest ((m : ℚ) / k * 10 ^ e / 10 ^ (e + 1 - digits))
      (Tie.toEven.divide (m * 10 ^ (digits - 1)) k : Nat) := by
    have quotient : (m : ℚ) / k * 10 ^ e / 10 ^ (e + 1 - digits) = (m * 10 ^ (digits - 1) : Nat) / k := by
      rw [place, zpow_sub₀ (by norm_num), zpow_natCast]
      push_cast
      field_simp
    rw [quotient]
    exact isNearest_divide _ positive
  rw [rounded_eq (k := e) ?_ ?_ nearest, place, Int.cast_natCast]
  · rw [size]
    nlinarith
  · rw [size, zpow_add_one₀ (by norm_num)]
    nlinarith

include some in
theorem quoFinite_value (first : a.Regular) (second : b.Regular) (divisor : b.coefficient ≠ 0)
    (answered : quoFinite ⟨digits, .toEven⟩ a b = .ok r) :
    r.value = rounded digits (a.value / b.value) := by
  obtain ⟨n, dividend⟩ := Int.eq_ofNat_of_zero_le first.natural
  obtain ⟨d, divides⟩ := Int.eq_ofNat_of_zero_le second.natural
  rw [quoFinite, dividend, divides, Int.natAbs_natCast, Int.natAbs_natCast] at answered
  split at answered
  · rename_i nothing
    have zero : a.value = 0 := by simp [value, magnitude, dividend, nothing]
    rw [eq_of_place answered, zero, zero_div, rounded_zero]
    exact value_zero _ _
  · rename_i something
    obtain ⟨m, k, shift, aligned, positive, low, high, quotient⟩ :=
      alignQuotient_spec (n := n) (d := d) (by omega) (by omega)
    rw [aligned] at answered
    have exact_ : a.magnitude / b.magnitude = m / k * 10 ^ (a.exponent - b.exponent - shift) := by
      rw [magnitude, magnitude, dividend, divides, Int.cast_natCast, Int.cast_natCast, mul_div_mul_comm,
        quotient, ← zpow_sub₀ (by norm_num), mul_assoc, ← zpow_add₀ (by norm_num)]
      congr 2
      ring
    rw [value_quotient, exact_, rounded_signed, rounded_quotient some positive low high, eq_of_place answered]
    have exponent : (0 : Int) + (a.exponent - b.exponent) + -shift + -((digits - 1 : Nat) : Int) =
        a.exponent - b.exponent - shift - ((digits - 1 : Nat) : Int) := by
      ring
    simp only [value, magnitude, List.foldl_cons, List.foldl_nil, exponent, Int.cast_natCast, Nat.pow_eq]

/-! The operations of scripts -/

theorem precision_pos : 0 < precision := by decide

/-- Answers of the operation are the exact results, rounded once. They do not depend on how the operands
are written, and none is further from the exact result than need be. -/
structure RoundsOnce (operation : Decimal → Decimal → Except ArithmeticError Decimal)
    (exact : ℚ → ℚ → ℚ) : Prop where
  once : ∀ {a b d : Decimal}, a.Regular → b.Regular → operation a b = .ok d →
    d.Regular ∧ d.value = rounded precision (exact a.value b.value)
  nearest : ∀ {a b d : Decimal}, a.Regular → b.Regular → operation a b = .ok d →
    Nearest precision (exact a.value b.value) d.value
  unrounded : ∀ {a b d : Decimal}, a.Regular → b.Regular → operation a b = .ok d →
    Short precision (exact a.value b.value) → d.value = exact a.value b.value
  independent : ∀ {a b d a' b' d' : Decimal}, a.Regular → b.Regular → a'.Regular → b'.Regular →
    a.value = a'.value → b.value = b'.value → operation a b = .ok d → operation a' b' = .ok d' →
    d.value = d'.value

theorem roundsOnce_of_value {operation : Decimal → Decimal → Except ArithmeticError Decimal}
    {exact : ℚ → ℚ → ℚ}
    (sound : ∀ {a b}, a.Sound True → b.Sound True → Yields (Sound True) (operation a b))
    (rounds : ∀ {a b d : Decimal}, a.Regular → b.Regular → operation a b = .ok d →
      d.value = rounded precision (exact a.value b.value)) : RoundsOnce operation exact where
  once first second answered :=
    ⟨sound_iff_regular.mp (sound first.sound second.sound _ answered), rounds first second answered⟩
  nearest first second answered := by
    rw [rounds first second answered]
    exact nearest_rounded precision_pos _
  unrounded first second answered short := by
    rw [rounds first second answered, rounded_of_short precision_pos short]
  independent first second third fourth left right answered again := by
    rw [rounds first second answered, rounds third fourth again, left, right]

section

variable (first : a.Regular) (second : b.Regular)

include first second

theorem add_value (answered : add a b = .ok r) : r.value = rounded precision (a.value + b.value) := by
  rw [add_eq_addFinite first.sound second.sound] at answered
  exact addFinite_value precision_pos first second answered

theorem sub_value (answered : sub a b = .ok r) : r.value = rounded precision (a.value - b.value) := by
  have opposite : Regular { b with negative := !b.negative } := ⟨second.finite, second.natural⟩
  have negated : value { b with negative := !b.negative } = -b.value := by
    simp only [value, magnitude]
    cases b.negative <;> simp
  rw [sub, second.sound.isNaN, if_neg Bool.false_ne_true] at answered
  rw [add_value first opposite answered, negated, sub_eq_add_neg]

theorem mul_value (answered : mul a b = .ok r) : r.value = rounded precision (a.value * b.value) := by
  rw [mul_eq_mulFinite first.sound second.sound] at answered
  exact mulFinite_value precision_pos first second answered

theorem quo_value (answered : quo a b = .ok r) : r.value = rounded precision (a.value / b.value) := by
  rw [quo_eq_quoFinite first.sound second.sound] at answered
  split at answered
  · cases answered
  · rename_i divides
    exact quoFinite_value precision_pos first second (mt second.isZero_iff.mpr divides) answered

theorem quo_divisionByZero_iff : quo a b = .error .divisionByZero ↔ b.value = 0 := by
  rw [quo_eq_quoFinite first.sound second.sound, second.value_eq_zero_iff]
  split
  · rename_i zero
    exact ⟨fun _ => zero, fun _ => rfl⟩
  · rename_i divides
    refine ⟨fun failed => ?_, fun zero => absurd zero divides⟩
    rw [quoFinite] at failed
    split at failed
    · exact absurd failed (place_ne_divisionByZero _ _)
    · split at failed
      exact absurd failed (place_ne_divisionByZero _ _)

end

/-- Sums, differences, products and quotients are rounded once, from the exact result to the nearest
number with the digits that are kept. Neither the order of the operands of a sum or a product matters
nor how they are written, and only a division by zero is refused as one. -/
theorem arithmetic_rounds_once :
    RoundsOnce add (· + ·) ∧ RoundsOnce sub (· - ·) ∧ RoundsOnce mul (· * ·) ∧ RoundsOnce quo (· / ·) ∧
    ∀ a b : Decimal, a.Regular → b.Regular →
      add a b = add b a ∧ mul a b = mul b a ∧ (quo a b = .error .divisionByZero ↔ b.value = 0) := by
  refine ⟨?_, ?_, ?_, ?_, fun a b first second => ⟨?_, ?_, quo_divisionByZero_iff first second⟩⟩
  · exact roundsOnce_of_value add_sound add_value
  · exact roundsOnce_of_value sub_sound sub_value
  · exact roundsOnce_of_value mul_sound mul_value
  · exact roundsOnce_of_value quo_sound quo_value
  · rw [add_eq_addFinite first.sound second.sound, add_eq_addFinite second.sound first.sound, addFinite_comm]
  · rw [mul_eq_mulFinite first.sound second.sound, mul_eq_mulFinite second.sound first.sound, mulFinite_comm]

/-- A half behind twenty-eight nines goes to the even neighbour, a power of ten. -/
theorem arithmetic_rounds_once_carry :
    ∃ a b d : Decimal, a.Regular ∧ b.Regular ∧ add a b = .ok d ∧ add b a = .ok d ∧
      d.coefficient = 1000000000000000000000000000 ∧ d.exponent = 1 ∧
      d.value = rounded precision (a.value + b.value) := by
  have first : Regular { coefficient := 9999999999999999999999999999 } := ⟨rfl, by decide⟩
  have second : Regular { coefficient := 5, exponent := -1 } := ⟨rfl, by decide⟩
  have answered : add { coefficient := 9999999999999999999999999999 } { coefficient := 5, exponent := -1 } =
      .ok { coefficient := 1000000000000000000000000000, exponent := 1 } := by decide +kernel
  obtain ⟨sums, -, -, -, rest⟩ := arithmetic_rounds_once
  exact ⟨_, _, _, first, second, answered, (rest _ _ first second).1 ▸ answered, rfl, rfl,
    (sums.once first second answered).2⟩

end Decimal

end Reckoner
