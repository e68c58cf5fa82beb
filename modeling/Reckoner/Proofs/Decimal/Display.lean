import Mathlib.Data.Nat.Factorization.Basic
import Reckoner.Proofs.Decimal.Numeral
import Reckoner.Proofs.Decimal.Value

/-!
The display of a number is its only canonical spelling. It shows the digits of the coefficient without
the zeros at their end, at the exponent that makes up for them, and these two depend on the number
alone.
-/

namespace Reckoner

theorem toDigits_last (n : Nat) : ∃ front, Nat.toDigits 10 n = front ++ [(n % 10).digitChar] := by
  by_cases small : n < 10
  · rw [Nat.toDigits_of_lt_base small, Nat.mod_eq_of_lt small]
    exact ⟨[], rfl⟩
  · exact ⟨_, Nat.toDigits_of_base_le (by decide) (Nat.le_of_not_lt small)⟩

theorem head?_toDigits {n : Nat} (positive : 0 < n) : (Nat.toDigits 10 n).head? ≠ some '0' := by
  induction n using Nat.strongRecOn with
  | ind n ih =>
      by_cases small : n < 10
      · rw [Nat.toDigits_of_lt_base small]
        intro zero
        exact Nat.ne_of_gt positive (Nat.digitChar_eq_zero.mp (Option.some.inj zero))
      · rw [Nat.toDigits_of_base_le (by decide) (Nat.le_of_not_lt small), List.head?_append,
          Option.or_of_isSome (List.isSome_head?.mpr Nat.toDigits_ne_nil)]
        exact ih (n / 10) (by omega) (by omega)

theorem digits_toDigits (n : Nat) : Digits (Nat.toDigits 10 n) where
  nonempty := Nat.toDigits_ne_nil
  all := fun _ member => Nat.isDigit_of_mem_toDigits (by decide) (by decide) member

/-- A number written with no more digits than it needs: no zero leads but one before the point, none
ends a fraction, and zero has no sign. -/
structure Canonical (negative : Bool) (whole fraction : List Char) : Prop where
  digits : Digits whole
  behind : ∀ c ∈ fraction, c.isDigit = true
  lead : whole = ['0'] ∨ whole.head? ≠ some '0'
  trail : fraction.getLast? ≠ some '0'
  unsigned : whole = ['0'] → fraction = [] → negative = false

namespace Decimal

theorem isDigit_of_mem_zeros {k : Nat} {c : Char} (member : c ∈ zeros k) : c.isDigit = true := by
  rw [List.eq_of_mem_replicate member]
  rfl

theorem trimZeros_zeros (digits : List Char) (k : Nat) :
    trimZeros (digits ++ zeros k) = ((trimZeros digits).1, (trimZeros digits).2 + k) := by
  have kept : (digits ++ zeros k).reverse.dropWhile (· == '0') = digits.reverse.dropWhile (· == '0') := by
    rw [List.reverse_append, zeros, List.reverse_replicate, List.dropWhile_append_of_pos (by simp)]
  have shorter : (digits.reverse.dropWhile (· == '0')).length ≤ digits.length := by
    have fewer := (List.dropWhile_sublist (· == '0') (l := digits.reverse)).length_le
    rwa [List.length_reverse] at fewer
  rw [trimZeros, kept, trimZeros, List.length_append, List.length_reverse, zeros, List.length_replicate]
  congr 1
  omega

theorem trimZeros_append {digits : List Char} {c : Char} (digit : c ≠ '0') (k : Nat) :
    trimZeros (digits ++ [c] ++ zeros k) = (digits ++ [c], k) := by
  have none : trimZeros (digits ++ [c]) = (digits ++ [c], 0) := by
    simp [trimZeros, digit]
  rw [trimZeros_zeros, none, Nat.zero_add]

structure Trimmed (d : Decimal) (n k : Nat) : Prop where
  coefficient : d.coefficient = (n * 10 ^ k : Nat)
  last : n % 10 ≠ 0

theorem Regular.trimmed {d : Decimal} (regular : d.Regular) (nonzero : d.coefficient ≠ 0) :
    ∃ n k, d.Trimmed n k := by
  obtain ⟨c, positive⟩ := Int.eq_ofNat_of_zero_le regular.natural
  have some : c ≠ 0 := by
    rintro rfl
    exact nonzero positive
  obtain ⟨k, n, last, whole⟩ := Nat.exists_eq_pow_mul_and_not_dvd some 10 (by decide)
  refine ⟨n, k, ?_, fun zero => last (Nat.dvd_of_mod_eq_zero zero)⟩
  rw [positive, whole, Nat.mul_comm]

namespace Trimmed

variable {d : Decimal} {n k : Nat} (trimmed : d.Trimmed n k)

include trimmed

theorem positive : 0 < n := by
  have := trimmed.last
  omega

theorem size : d.size = digitCount n + k := by
  rw [Decimal.size, trimmed.coefficient, Int.natAbs_natCast, digitCount_mul_pow trimmed.positive]

theorem nonzero : d.coefficient ≠ 0 := by
  rw [trimmed.coefficient]
  have := Nat.mul_pos trimmed.positive (Nat.pow_pos (n := k) (show 0 < 10 by decide))
  omega

theorem displayChars (regular : d.Regular) :
    d.displayChars = signed d.negative (plain (Nat.toDigits 10 n) (d.exponent + k)) := by
  have digits : coefficientChars d.coefficient = Nat.toDigits 10 n ++ zeros k := by
    rw [coefficientChars, if_neg (Int.not_lt.mpr regular.natural), digitsOf_eq, trimmed.coefficient,
      Int.natAbs_natCast, toDigits_mul_pow trimmed.positive]
  obtain ⟨front, split⟩ := toDigits_last n
  have trim : trimZeros (Nat.toDigits 10 n ++ zeros k) = (Nat.toDigits 10 n, k) := by
    rw [split]
    exact trimZeros_append (mt Nat.digitChar_eq_zero.mp trimmed.last) k
  have finite : d.isFinite = true := beq_iff_eq.mpr regular.finite
  rw [Decimal.displayChars, if_neg (mt regular.isZero_iff.mp trimmed.nonzero), if_pos finite, digits,
    trim]

end Trimmed

section Padded

variable (width n : Nat)

theorem length_padded : (padded width n).length = max width (digitCount n) := by
  rw [padded, List.length_append, zeros, List.length_replicate, digitCount_eq]
  omega

theorem digits_padded : ∀ c ∈ padded width n, c.isDigit = true := by
  intro c member
  rcases List.mem_append.mp member with zero | digit
  · exact isDigit_of_mem_zeros zero
  · exact (digits_toDigits n).all c digit

theorem digitsValue_padded : digitsValue (padded width n) = n := by
  rw [padded, digitsValue_eq, Nat.ofDigitChars_append, zeros, Nat.ofDigitChars_replicate_zero,
    Nat.mul_zero, Nat.ofDigitChars_ten_toDigits]

theorem getLast?_padded : (padded width n).getLast? = some (n % 10).digitChar := by
  obtain ⟨front, split⟩ := toDigits_last n
  rw [padded, split, ← List.append_assoc, List.getLast?_concat]

end Padded

structure Spells (n : Nat) (e : Int) (whole fraction : List Char) : Prop where
  text : plain (Nat.toDigits 10 n) e = spelled whole fraction
  canonical : ∀ negative, Canonical negative whole fraction
  value : digitsValue (whole ++ fraction) = n * 10 ^ e.toNat
  places : fraction.length = (-e).toNat
  width : whole.length = 1 ∨ (whole.length : Int) = digitCount n + e

section

variable {n : Nat} (positive : 0 < n) {e : Int}

include positive

theorem spells_whole (whole : 0 ≤ e) : Spells n e (Nat.toDigits 10 n ++ zeros e.toNat) [] where
  text := if_pos whole
  canonical := by
    have lead : (Nat.toDigits 10 n ++ zeros e.toNat).head? ≠ some '0' := by
      rw [List.head?_append, Option.or_of_isSome (List.isSome_head?.mpr Nat.toDigits_ne_nil)]
      exact head?_toDigits positive
    exact fun negative => {
      digits := (digits_toDigits n).append fun _ => isDigit_of_mem_zeros
      behind := nofun
      lead := .inr lead
      trail := nofun
      unsigned := fun zero => absurd (congrArg List.head? zero) lead }
  value := by
    rw [List.append_nil, digitsValue_eq, Nat.ofDigitChars_append, Nat.ofDigitChars_ten_toDigits, zeros,
      Nat.ofDigitChars_replicate_zero, Nat.mul_comm]
  places := by
    rw [List.length_nil]
    omega
  width := by
    right
    rw [List.length_append, zeros, List.length_replicate, ← digitCount_eq]
    omega

theorem lead_padded (places : Nat) :
    (padded (places + 1) n).take ((padded (places + 1) n).length - places) = ['0'] ∨
      ((padded (places + 1) n).take ((padded (places + 1) n).length - places)).head? ≠ some '0' := by
  rw [length_padded, padded, ← digitCount_eq]
  by_cases few : digitCount n ≤ places
  · left
    rw [Nat.max_eq_left (show digitCount n ≤ places + 1 by omega), Nat.add_sub_cancel_left,
      Nat.sub_add_comm few, zeros, List.replicate_succ]
    rfl
  · right
    have none : places + 1 - digitCount n = 0 := by omega
    rw [none, zeros, List.replicate_zero, List.nil_append, List.head?_take, if_neg (by omega)]
    exact head?_toDigits positive

theorem spells_fraction (last : n % 10 ≠ 0) {places : Nat} (some : 0 < places) :
    ∃ whole fraction, Spells n (-(places : Int)) whole fraction := by
  have text : plain (Nat.toDigits 10 n) (-(places : Int)) = withPoint (Nat.toDigits 10 n) places := by
    rw [plain, if_neg (by omega), Int.neg_neg, Int.toNat_natCast]
  have lead := lead_padded positive places
  have digits := digits_padded (places + 1) n
  have value := digitsValue_padded (places + 1) n
  have final := getLast?_padded (places + 1) n
  have length := length_padded (places + 1) n
  rw [withPoint, if_neg (Nat.ne_of_gt some)] at text
  rw [← padded] at text
  generalize padded (places + 1) n = ds at *
  have length_take : (ds.take (ds.length - places)).length = ds.length - places :=
    List.length_take_of_le (Nat.sub_le ..)
  have length_drop : (ds.drop (ds.length - places)).length = places := by
    rw [List.length_drop]
    omega
  have behind : ds.drop (ds.length - places) ≠ [] := by
    rw [← List.length_pos_iff, length_drop]
    exact some
  refine ⟨ds.take (ds.length - places), ds.drop (ds.length - places), ?_, fun negative => ?_, ?_, ?_, ?_⟩
  · rw [text, spelled, if_neg (by simpa using behind)]
  · exact {
      digits := {
        nonempty := by
          rw [← List.length_pos_iff, length_take]
          omega
        all := fun c member => digits c (List.mem_of_mem_take member) }
      behind := fun c member => digits c (List.mem_of_mem_drop member)
      lead := lead
      trail := by
        rw [List.getLast?_drop, if_neg (by omega), final]
        exact fun zero => last (Nat.digitChar_eq_zero.mp (Option.some.inj zero))
      unsigned := fun _ none => absurd none behind }
  · rw [List.take_append_drop, value, Int.toNat_of_nonpos (by omega), Nat.pow_zero, Nat.mul_one]
  · rw [length_drop, Int.neg_neg, Int.toNat_natCast]
  · rw [length_take]
    omega

theorem spells (last : n % 10 ≠ 0) (e : Int) : ∃ whole fraction, Spells n e whole fraction := by
  by_cases whole : 0 ≤ e
  · exact ⟨_, _, spells_whole positive whole⟩
  · obtain ⟨places, rfl⟩ : ∃ places : Nat, e = -(places : Int) := ⟨(-e).toNat, by omega⟩
    exact spells_fraction positive last (by omega)

end

theorem Spells.magnitude {n : Nat} {e : Int} {whole fraction : List Char}
    (spells : Spells n e whole fraction) (negative : Bool) :
    (ofDigits negative whole fraction).magnitude = n * (10 : ℚ) ^ e := by
  have parts : (e.toNat : Int) + -((-e).toNat : Int) = e := by omega
  have power : (10 : ℚ) ^ e = 10 ^ e.toNat * 10 ^ (-((-e).toNat : Int)) := by
    rw [← zpow_natCast, ← zpow_add₀ (by norm_num), parts]
  rw [Decimal.magnitude, ofDigits, spells.value, spells.places, power]
  push_cast
  ring

theorem Trimmed.magnitude {d : Decimal} {n k : Nat} (trimmed : d.Trimmed n k) :
    d.magnitude = n * (10 : ℚ) ^ (d.exponent + k) := by
  rw [Decimal.magnitude, trimmed.coefficient, zpow_add₀ (by norm_num), zpow_natCast]
  push_cast
  ring

structure Spelling (d : Decimal) (negative : Bool) (whole fraction : List Char) : Prop where
  text : d.displayChars = signed negative (spelled whole fraction)
  canonical : Canonical negative whole fraction
  value : (ofDigits negative whole fraction).value = d.value
  places : fraction.length ≤ (-d.exponent).toNat
  width : whole.length = 1 ∨ (whole.length : Int) = d.adjusted + 1

theorem spelling_zero {d : Decimal} (regular : d.Regular) (zero : d.coefficient = 0) :
    d.Spelling false ['0'] [] where
  text := if_pos (regular.isZero_iff.mpr zero)
  canonical := {
    digits := .single rfl
    behind := nofun
    lead := .inl rfl
    trail := nofun
    unsigned := fun _ _ => rfl }
  value := by
    have nothing : (ofDigits false ['0'] []).coefficient = 0 := rfl
    rw [regular.value_eq, regular.sign_eq_zero_iff.mpr zero, Int.cast_zero, zero_mul, value,
      Decimal.magnitude, nothing, Int.cast_zero, zero_mul]
    rfl
  places := Nat.zero_le _
  width := .inl rfl

theorem Trimmed.spelling {d : Decimal} {n k : Nat} (regular : d.Regular) (trimmed : d.Trimmed n k)
    {whole fraction : List Char} (spells : Spells n (d.exponent + k) whole fraction) :
    d.Spelling d.negative whole fraction where
  text := by rw [trimmed.displayChars regular, spells.text]
  canonical := spells.canonical d.negative
  value := by
    have negative : (ofDigits d.negative whole fraction).negative = d.negative := rfl
    rw [value, value, negative, spells.magnitude, ← trimmed.magnitude]
  places := by
    rw [spells.places]
    omega
  width := by
    have width := spells.width
    rw [adjusted, trimmed.size]
    omega

theorem Regular.spelling {d : Decimal} (regular : d.Regular) :
    ∃ negative whole fraction, d.Spelling negative whole fraction := by
  by_cases zero : d.coefficient = 0
  · exact ⟨_, _, _, spelling_zero regular zero⟩
  · obtain ⟨n, k, trimmed⟩ := regular.trimmed zero
    obtain ⟨whole, fraction, spells⟩ := spells trimmed.positive trimmed.last (d.exponent + k)
    exact ⟨_, _, _, trimmed.spelling regular spells⟩

theorem coefficientChars_mul_pow {n : Int} (nonzero : n ≠ 0) (k : Nat) :
    coefficientChars (n * 10 ^ k) = coefficientChars n ++ zeros k := by
  have digits : digitsOf (n * 10 ^ k).natAbs = digitsOf n.natAbs ++ zeros k := by
    rw [digitsOf_eq, digitsOf_eq, Int.natAbs_mul, Int.natAbs_pow]
    exact toDigits_mul_pow (Int.natAbs_pos.mpr nonzero) k
  have power : (0 : Int) < 10 ^ k := Int.pow_pos (by decide)
  rw [coefficientChars, coefficientChars, digits]
  by_cases below : n < 0
  · rw [if_pos below, if_pos (Int.mul_neg_of_neg_of_pos below power), List.cons_append]
  · rw [if_neg below, if_neg (Int.not_lt.mpr (Int.mul_nonneg (Int.not_lt.mp below) (Int.le_of_lt power)))]

theorem display_of_parts {a b : Decimal} (first : a.form = .finite) (second : b.form = .finite)
    (signs : a.sign = b.sign) (magnitudes : a.magnitude = b.magnitude) : a.display = b.display := by
  by_cases zero : a.sign = 0
  · have none := (isZero_iff first).mpr ((sign_eq_zero_iff first).mp zero)
    have other := (isZero_iff second).mpr ((sign_eq_zero_iff second).mp (signs ▸ zero))
    rw [display, display, displayChars, displayChars, if_pos none, if_pos other]
  · have lower : ∀ {a b : Decimal}, a.form = .finite → b.form = .finite → a.sign = b.sign →
        a.magnitude = b.magnitude → a.sign ≠ 0 → a.exponent ≤ b.exponent →
        a.displayChars = b.displayChars := by
      intro a b first second signs magnitudes zero le
      have some := mt (sign_eq_zero_iff first).mpr zero
      have other := mt (sign_eq_zero_iff second).mpr (signs ▸ zero)
      have scaled := (magnitude_eq_iff le).mp magnitudes
      have exponents (removed : Nat) :
          a.exponent + (removed + (b.exponent - a.exponent).toNat : Nat) = b.exponent + removed := by
        omega
      rw [displayChars, displayChars, if_neg (mt (isZero_iff first).mp some),
        if_neg (mt (isZero_iff second).mp other), isFinite, isFinite, if_pos (beq_iff_eq.mpr first),
        if_pos (beq_iff_eq.mpr second), scaled, coefficientChars_mul_pow other, trimZeros_zeros,
        negative_eq first some, negative_eq second other, signs]
      simp only [exponents]
    rw [display, display]
    rcases Int.le_total a.exponent b.exponent with le | ge
    · rw [lower first second signs magnitudes zero le]
    · rw [lower second first signs.symm magnitudes.symm (signs ▸ zero) ge]

theorem display_congr {a b : Decimal} (first : a.Regular) (second : b.Regular)
    (same : a.value = b.value) : a.display = b.display :=
  have parts := (first.value_eq_iff second).mp same
  display_of_parts first.finite second.finite parts.1 parts.2

/-- A number whose display is not too long to be read. -/
structure Shown (d : Decimal) : Prop extends d.Regular where
  low : -100000 ≤ d.exponent
  adjusted : -100000 ≤ d.adjusted ∧ d.adjusted ≤ 100000

theorem Shown.parse {d : Decimal} (shown : d.Shown) {negative : Bool} {whole fraction : List Char}
    (spelling : d.Spelling negative whole fraction) :
    parse d.display = .ok (ofDigits negative whole fraction) := by
  have canonical := spelling.canonical
  have low := shown.low
  have adjusted := shown.adjusted
  have places := spelling.places
  have width := spelling.width
  rw [display, spelling.text]
  exact parse_spelled canonical.digits canonical.behind
    (inReach_ofDigits (canonical.digits.append canonical.behind) (by omega) (by omega))

/-- The display of a number is canonical, reads back as the same number, and tells exactly the
different numbers apart. -/
theorem display_canonical {d : Decimal} (shown : d.Shown) :
    (∃ negative whole fraction, Canonical negative whole fraction ∧
      d.display = String.ofList (signed negative (spelled whole fraction))) ∧
    (∃ e, Decimal.parse d.display = .ok e ∧ e.Regular ∧ e.value = d.value) ∧
    ∀ other : Decimal, other.Shown → (d.display = other.display ↔ d.compare other = .eq) := by
  obtain ⟨negative, whole, fraction, spelling⟩ := shown.toRegular.spelling
  have read := shown.parse spelling
  refine ⟨⟨negative, whole, fraction, spelling.canonical, congrArg String.ofList spelling.text⟩,
    ⟨_, read, regular_ofDigits .., spelling.value⟩, fun other shownOther => ?_⟩
  rw [compare_eq_iff shown.toRegular shownOther.toRegular]
  constructor
  · intro same
    obtain ⟨_, _, _, spellingOther⟩ := shownOther.toRegular.spelling
    have readOther := shownOther.parse spellingOther
    rw [← same, read] at readOther
    rw [← spelling.value, ← spellingOther.value, Except.ok.inj readOther]
  · exact display_congr shown.toRegular shownOther.toRegular

theorem display_canonical_zeros :
    let d : Decimal := { negative := true, coefficient := 1500, exponent := -1 }
    let other : Decimal := { negative := true, coefficient := 15, exponent := 1 }
    d.Shown ∧ other.Shown ∧ d.display = other.display ∧ d.display = "-150" ∧
      ∃ e, Decimal.parse d.display = .ok e ∧ e.value = d.value := by
  intro d other
  have shown : d.Shown := ⟨⟨rfl, by decide⟩, by decide, by decide⟩
  have shownOther : other.Shown := ⟨⟨rfl, by decide⟩, by decide, by decide⟩
  obtain ⟨-, ⟨e, read, -, same⟩, equal⟩ := display_canonical shown
  exact ⟨shown, shownOther, (equal other shownOther).mpr (by decide), by decide, e, read, same⟩

end Decimal

end Reckoner
