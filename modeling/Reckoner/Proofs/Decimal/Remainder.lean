import Reckoner.Proofs.Decimal.Arithmetic

/-!
The remainder of scripts against that of rational numbers. The operands are brought to one exponent
and divided as integers; what is left over never has more digits than an operand, so nothing of it is
rounded away.
-/

namespace Reckoner

/-- The integer part of a number. What is behind the point is dropped on either side of zero. -/
def wholePart (q : ℚ) : ℤ := if q < 0 then ⌈q⌉ else ⌊q⌋

/-- What a division leaves over when its quotient is cut to an integer. -/
structure Remainder (a b r : ℚ) : Prop where
  exact : a = wholePart (a / b) * b + r
  bound : |r| < |b|
  sign : r = 0 ∨ SignType.sign r = SignType.sign a

section

variable {a b r : ℚ} {n : ℤ} (exact : a = n * b + r) (bound : |r| < |b|)
  (sign : r = 0 ∨ SignType.sign r = SignType.sign a)

include exact bound sign

theorem wholePart_eq : wholePart (a / b) = n := by
  have divides : b ≠ 0 := abs_pos.mp (lt_of_le_of_lt (abs_nonneg r) bound)
  have quotient : a / b = n + r / b := by rw [exact, add_div, mul_div_cancel_right₀ _ divides]
  have small : |r / b| < 1 := by rwa [abs_div, div_lt_one (abs_pos.mpr divides)]
  have side : r / b = 0 ∨ SignType.sign (r / b) = SignType.sign (a / b) := by
    refine sign.imp (fun zero => by rw [zero, zero_div]) fun same => ?_
    rw [div_eq_mul_inv, div_eq_mul_inv, sign_mul, sign_mul, same]
  obtain ⟨low, high⟩ := abs_lt.mp small
  rw [wholePart]
  split
  · rename_i negative
    have behind : r / b ≤ 0 := by
      rcases side with zero | same
      · exact zero.le
      · rw [sign_neg negative] at same
        exact (sign_eq_neg_one_iff.mp same).le
    rw [Int.ceil_eq_iff]
    constructor <;> linarith
  · rename_i natural
    have ahead : 0 ≤ r / b := by
      rcases side with zero | same
      · exact zero.ge
      · exact sign_nonneg_iff.mp (same ▸ sign_nonneg_iff.mpr (not_lt.mp natural))
    rw [Int.floor_eq_iff]
    constructor <;> linarith

theorem remainder_of_integer : Remainder a b r where
  exact := by rwa [wholePart_eq exact bound sign]
  bound := bound
  sign := sign

end

theorem Remainder.unique {a b r s : ℚ} (first : Remainder a b r) (second : Remainder a b s) : r = s :=
  add_left_cancel (first.exact.symm.trans second.exact)

namespace Decimal

variable {a b r : Decimal} {digits : Nat} (some : 0 < digits)

theorem coefficient_lt (short : a.size ≤ digits) : a.coefficient.natAbs < 10 ^ digits :=
  Nat.lt_of_lt_of_le (lt_pow_digitCount _) (Nat.pow_le_pow_right (by decide) short)

theorem align_tmod_lt {limit : Nat} (first : a.coefficient.natAbs < limit)
    (second : b.coefficient.natAbs < limit) (divides : b.coefficient ≠ 0) :
    ((align a b).1.tmod (align a b).2.1).natAbs < limit := by
  rw [Int.natAbs_tmod, align]
  split
  · exact Nat.lt_of_le_of_lt (Nat.mod_le _ _) first
  · exact Nat.lt_trans (Nat.mod_lt _ (Int.natAbs_pos.mpr divides)) second

theorem sign_signed (negative : Bool) {m : Int} (positive : 0 < m) (e : Int) :
    SignType.sign (((if negative then -m else m : Int) : ℚ) * 10 ^ e) = if negative then -1 else 1 := by
  have above : (0 : ℚ) < m * 10 ^ e := mul_pos (by exact_mod_cast positive) (zpow_pos (by norm_num) e)
  cases negative
  · exact sign_pos above
  · rw [if_pos rfl, if_pos rfl, Int.cast_neg, neg_mul]
    exact sign_neg (neg_neg_of_pos above)

theorem remainder_aligned (first second : Bool) {x y : Int} (natural : 0 ≤ x) (divisor : 0 < y) (e : Int) :
    Remainder ((if first then -x else x : Int) * 10 ^ e) ((if second then -y else y : Int) * 10 ^ e)
      ((if first then -x.tmod y else x.tmod y : Int) * 10 ^ e) := by
  have step : (0 : ℚ) < 10 ^ e := zpow_pos (by norm_num) e
  have rest := Int.tmod_nonneg y natural
  have parts := Int.tmod_add_tdiv_mul x y
  have sized : ∀ (negative : Bool) {m : Int}, 0 ≤ m →
      |((if negative then -m else m : Int) : ℚ) * 10 ^ e| = m * 10 ^ e := by
    intro negative m positive
    rw [abs_mul, abs_of_pos step]
    congr 1
    cases negative <;> simp [abs_of_nonneg, positive]
  refine remainder_of_integer (n := if first != second then -x.tdiv y else x.tdiv y) ?_ ?_ ?_
  · rw [← mul_assoc, ← add_mul]
    congr 1
    norm_cast
    cases first <;> cases second <;> simp <;> linarith
  · rw [sized first rest, sized second divisor.le]
    exact mul_lt_mul_of_pos_right (by exact_mod_cast Int.tmod_lt_of_pos x divisor) step
  · rcases rest.eq_or_lt with none | left
    · left
      rw [← none, neg_zero, ite_self, Int.cast_zero, zero_mul]
    · right
      have dividend : 0 < x := by
        refine lt_of_le_of_ne natural fun zero => ?_
        rw [← zero, Int.zero_tmod] at left
        exact lt_irrefl 0 left
      rw [sign_signed first left, sign_signed first dividend]

include some in
theorem remFinite_value (first : a.Regular) (second : b.Regular) (left : a.size ≤ digits)
    (right : b.size ≤ digits) (divides : b.coefficient ≠ 0)
    (answered : remFinite ⟨digits, .toEven⟩ a b = .ok r) : Remainder a.value b.value r.value := by
  obtain ⟨dividend, divisor⟩ := align_value a b
  have natural := align_nonneg first.natural second.natural
  have few := align_tmod_lt (coefficient_lt left) (coefficient_lt right) divides
  have positive : 0 < (align a b).2.1 := by
    refine lt_of_le_of_ne natural.2 fun zero => ?_
    rw [← zero, Int.cast_zero, zero_mul] at divisor
    exact absurd divisor (second.magnitude_pos divides).ne'
  rw [remFinite] at answered
  generalize align a b = aligned at *
  obtain ⟨x, y, e⟩ := aligned
  dsimp only at answered few positive
  split at answered
  · cases answered
  · split at answered
    · cases answered
    · rw [round_value some ⟨rfl, Int.tmod_nonneg y natural.1⟩ answered, rounded_of_short some (short_value few),
        value_signed a x e dividend, value_signed b y e divisor, value_signed _ (x.tmod y) e rfl]
      exact remainder_aligned _ _ natural.1 positive e

theorem round_ne_divisionByZero (r : Rounding) (d : Decimal) : d.round r ≠ .error .divisionByZero := by
  intro failed
  rw [round] at failed
  dsimp only at failed
  split at failed
  · cases failed
  · split at failed
    · exact place_ne_divisionByZero _ _ failed
    · split at failed
      · cases failed
      · exact place_ne_divisionByZero _ _ failed

section

variable (first : a.Regular) (second : b.Regular)

include first second

theorem rem_value (left : a.size ≤ precision) (right : b.size ≤ precision) (answered : rem a b = .ok r) :
    Remainder a.value b.value r.value := by
  rw [rem_eq_remFinite first.sound second.sound] at answered
  split at answered
  · cases answered
  · rename_i divides
    exact remFinite_value precision_pos first second left right (mt second.isZero_iff.mpr divides) answered

theorem rem_divisionByZero_iff : rem a b = .error .divisionByZero ↔ b.value = 0 := by
  rw [rem_eq_remFinite first.sound second.sound, second.value_eq_zero_iff]
  split
  · rename_i zero
    exact ⟨fun _ => zero, fun _ => rfl⟩
  · rename_i divides
    refine ⟨fun failed => ?_, fun zero => absurd zero divides⟩
    rw [remFinite] at failed
    dsimp only at failed
    split at failed
    · cases failed
    · split at failed
      · cases failed
      · exact absurd failed (round_ne_divisionByZero _ _)

end

/-- The remainder of numbers with no more digits than are kept is exact, and how they are written does
not matter. Only a division by zero is refused as one. -/
theorem rem_exact (a b : Decimal) (first : a.Regular) (second : b.Regular) (left : a.size ≤ precision)
    (right : b.size ≤ precision) :
    (rem a b = .error .divisionByZero ↔ b.value = 0) ∧
    (∀ r, rem a b = .ok r → r.Regular ∧ Remainder a.value b.value r.value) ∧
    ∀ a' b' r r' : Decimal, a'.Regular → b'.Regular → a'.size ≤ precision → b'.size ≤ precision →
      a.value = a'.value → b.value = b'.value → rem a b = .ok r → rem a' b' = .ok r' →
      r.value = r'.value := by
  refine ⟨rem_divisionByZero_iff first second, fun r answered => ⟨?_, ?_⟩, ?_⟩
  · exact sound_iff_regular.mp (rem_sound first.sound second.sound r answered)
  · exact rem_value first second left right answered
  · intro a' b' r r' third fourth left' right' dividend divisor answered again
    have other := rem_value third fourth left' right' again
    rw [← dividend, ← divisor] at other
    exact (rem_value first second left right answered).unique other

/-- Minus seven and a half leaves minus three halves over when it is divided by two, also when it is
divided by twenty tenths. -/
theorem rem_exact_seven_halves :
    ∃ a b b' r r' : Decimal, a.Regular ∧ b.Regular ∧ b'.Regular ∧ b ≠ b' ∧ b.value = b'.value ∧
      rem a b = .ok r ∧ rem a b' = .ok r' ∧ r.negative = true ∧ r.coefficient = 15 ∧ r.exponent = -1 ∧
      Remainder a.value b.value r.value ∧ r.value = r'.value := by
  have first : Regular { negative := true, coefficient := 75, exponent := -1 } := ⟨rfl, by decide⟩
  have second : Regular { coefficient := 2 } := ⟨rfl, by decide⟩
  have third : Regular { coefficient := 20, exponent := -1 } := ⟨rfl, by decide⟩
  have same : value { coefficient := 2 } = value { coefficient := 20, exponent := -1 } := by
    norm_num [value, magnitude]
  have answered : rem { negative := true, coefficient := 75, exponent := -1 } { coefficient := 2 } =
      .ok { negative := true, coefficient := 15, exponent := -1 } := by decide +kernel
  have again : rem { negative := true, coefficient := 75, exponent := -1 }
      { coefficient := 20, exponent := -1 } =
      .ok { negative := true, coefficient := 15, exponent := -1 } := by decide +kernel
  obtain ⟨-, exact_, independent⟩ := rem_exact _ _ first second (by decide +kernel) (by decide +kernel)
  exact ⟨_, _, _, _, _, first, second, third, by decide, same, answered, again, rfl, rfl, rfl,
    (exact_ _ answered).2, independent _ _ _ _ first third (by decide +kernel) (by decide +kernel) rfl same
      answered again⟩

end Decimal

end Reckoner
