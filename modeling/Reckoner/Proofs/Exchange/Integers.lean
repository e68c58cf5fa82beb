import Reckoner.Exchange.Target
import Reckoner.Proofs.Decimal.Numeral
import Reckoner.Proofs.Decimal.Value

/-!
Integers on their way between a host program and a script. Every integer of a host becomes a number
that denotes it, and a variable takes exactly the integers of its type that fit 64 bits with a sign.
-/

namespace Reckoner

namespace IntegerType

theorem least_int64_le (t : IntegerType) : int64.least ≤ t.least := by
  cases t <;> decide

theorem greatest_le_uint64 (t : IntegerType) : t.greatest ≤ uint64.greatest := by
  cases t <;> decide

theorem least_unsigned {t : IntegerType} (unsigned : t.signed = false) : t.least = 0 := by
  rw [least, unsigned]
  rfl

theorem contains_iff {t : IntegerType} {n : Int} :
    t.contains n = true ↔ t.least ≤ n ∧ n ≤ t.greatest := by
  rw [contains, Bool.and_eq_true, decide_eq_true_iff, decide_eq_true_iff]

end IntegerType

theorem Decimal.parse_natural {n : Nat} (short : digitCount n ≤ 100000) :
    parse (Text.natural n) = .ok (ofInt n) := by
  have digits : Digits (Nat.toDigits 10 n) := {
    nonempty := Nat.toDigits_ne_nil
    all := fun _ member => Nat.isDigit_of_mem_toDigits (by decide) (by decide) member }
  have none : ∀ c ∈ ([] : List Char), c.isDigit = true := List.forall_mem_nil _
  have same : ofDigits false (Nat.toDigits 10 n) [] = ofInt n := by
    have plus : decide ((n : Int) < 0) = false := decide_eq_false (by omega)
    rw [ofDigits, List.append_nil, digitsValue_eq, Nat.ofDigitChars_ten_toDigits, ofInt, plus]
    rfl
  have reach : (ofDigits false (Nat.toDigits 10 n) []).InReach := by
    rw [digitCount_eq] at short
    exact inReach_ofDigits (digits.append none) (Nat.zero_le _) (by omega)
  have text : Text.natural n = String.ofList (signed false (spelled (Nat.toDigits 10 n) [])) := rfl
  rw [text, parse_spelled digits none reach, same]

namespace Value

theorem toInteger_eq_ok_iff {t : IntegerType} {d : Decimal} (regular : d.Regular) {n : Int} :
    toInteger t d = .ok n ↔
      d.value = n ∧ t.contains n = true ∧ n ≤ IntegerType.int64.greatest := by
  have direct : wordInteger? d = d.integer?.filter IntegerType.int64.contains := by
    have natural := regular.natural
    rw [wordInteger?, if_neg]
    rw [Bool.and_eq_true, decide_eq_true_iff]
    omega
  rw [toInteger, direct, ← regular.integer?_eq_some_iff]
  cases d.integer? with
  | none => exact ⟨nofun, nofun⟩
  | some m =>
      rw [Option.filter_some, Option.some_inj]
      by_cases word : IntegerType.int64.contains m = true
      · rw [if_pos word]
        dsimp only
        by_cases fits : t.contains m = true
        · have least := (IntegerType.contains_iff.mp fits).1
          have proper : ¬((!t.signed && decide (m < 0)) = true) := by
            rw [Bool.and_eq_true, Bool.not_eq_true', decide_eq_true_iff]
            rintro ⟨unsigned, below⟩
            rw [IntegerType.least_unsigned unsigned] at least
            omega
          rw [if_neg proper, if_pos fits, Except.ok.injEq]
          constructor
          · rintro rfl
            exact ⟨rfl, fits, (IntegerType.contains_iff.mp word).2⟩
          · exact fun taken => taken.1
        · rw [if_neg fits]
          constructor
          · split <;> exact nofun
          · rintro ⟨rfl, taken, -⟩
            exact absurd taken fits
      · rw [if_neg word]
        refine ⟨nofun, ?_⟩
        rintro ⟨rfl, fits, high⟩
        have low := Int.le_trans t.least_int64_le (IntegerType.contains_iff.mp fits).1
        exact absurd (IntegerType.contains_iff.mpr ⟨low, high⟩) word

end Value

theorem Destination.assign_integer (t : IntegerType) (d : Decimal) (contents : Datum) :
    assign (.number d) (.slot ⟨.integer t, contents⟩) =
      match Value.toInteger t d with
      | .ok n => (.slot ⟨.integer t, .integer n⟩, none)
      | .error e => (.slot ⟨.integer t, contents⟩, some e) := by
  rw [assign, Value.convert]
  cases Value.toInteger t d <;> rfl

theorem integers_denoted {t : IntegerType} {x : Int} (fits : t.contains x = true) :
    (Datum.integer x).toValue = .ok (.number (.ofInt x)) ∧ (Decimal.ofInt x).value = x ∧
      (0 ≤ x → Decimal.parse (Text.natural x.toNat) = .ok (.ofInt x)) := by
  refine ⟨rfl, Decimal.value_ofInt x, fun natural => ?_⟩
  have high := Int.le_trans (IntegerType.contains_iff.mp fits).2 t.greatest_le_uint64
  have bound : x.toNat < 10 ^ 20 := by
    have greatest : IntegerType.uint64.greatest = 18446744073709551615 := rfl
    omega
  have few := digitCount_le (by decide) bound
  have read := Decimal.parse_natural (n := x.toNat) (by omega)
  rwa [Int.toNat_of_nonneg natural] at read

/-- Integers survive the way into a script and out again, up to the greatest one of 64 bits with a
sign. A variable takes a number exactly if it is an integer of its type up to there, and is otherwise
left alone. -/
theorem integers_cross (t : IntegerType) :
    (∀ x, t.contains x = true →
      (Datum.integer x).toValue = .ok (.number (.ofInt x)) ∧ (Decimal.ofInt x).value = x ∧
        (0 ≤ x → Decimal.parse (Text.natural x.toNat) = .ok (.ofInt x)) ∧
        (x ≤ IntegerType.int64.greatest → ∀ contents,
          Destination.assign (.number (.ofInt x)) (.slot ⟨.integer t, contents⟩) =
            (.slot ⟨.integer t, .integer x⟩, none))) ∧
    ∀ d : Decimal, d.Regular → ∀ contents,
      (∀ x : Int, d.value = x → t.contains x = true → x ≤ IntegerType.int64.greatest →
        Destination.assign (.number d) (.slot ⟨.integer t, contents⟩) =
          (.slot ⟨.integer t, .integer x⟩, none)) ∧
      ((¬∃ x : Int, d.value = x ∧ t.contains x = true ∧ x ≤ IntegerType.int64.greatest) →
        ∃ e, Destination.assign (.number d) (.slot ⟨.integer t, contents⟩) =
          (.slot ⟨.integer t, contents⟩, some e)) := by
  have taken : ∀ {d : Decimal}, d.Regular → ∀ {x : Int}, d.value = x → t.contains x = true →
      x ≤ IntegerType.int64.greatest → ∀ contents,
        Destination.assign (.number d) (.slot ⟨.integer t, contents⟩) =
          (.slot ⟨.integer t, .integer x⟩, none) := by
    intro d regular x denoted fits high contents
    rw [Destination.assign_integer, (Value.toInteger_eq_ok_iff regular).mpr ⟨denoted, fits, high⟩]
  refine ⟨fun x fits => ?_, fun d regular contents => ⟨fun x denoted fits high => ?_, fun none => ?_⟩⟩
  · obtain ⟨sent, denoted, read⟩ := integers_denoted fits
    exact ⟨sent, denoted, read, taken (Decimal.regular_ofInt x) denoted fits⟩
  · exact taken regular denoted fits high contents
  · rw [Destination.assign_integer]
    cases converted : Value.toInteger t d with
    | error e => exact ⟨e, rfl⟩
    | ok n => exact absurd ⟨n, (Value.toInteger_eq_ok_iff regular).mp converted⟩ none

theorem integers_cross_limits :
    IntegerType.int8.contains (-128) = true ∧
    (Destination.assign (.number (.ofInt (-128))) (.slot ⟨.integer .int8, .missing⟩)) =
      (.slot ⟨.integer .int8, .integer (-128)⟩, none) ∧
    ∃ e, Destination.assign (.number (.ofInt 256)) (.slot ⟨.integer .uint8, .integer 7⟩) =
      (.slot ⟨.integer .uint8, .integer 7⟩, some e) := by
  have least : IntegerType.int8.contains (-128) = true := by decide
  refine ⟨least, ((integers_cross .int8).1 (-128) least).2.2.2 (by decide) .missing, ?_⟩
  refine ((integers_cross .uint8).2 (.ofInt 256) (Decimal.regular_ofInt 256) (.integer 7)).2 ?_
  rintro ⟨x, denoted, fits, -⟩
  rw [Decimal.value_ofInt, Int.cast_inj] at denoted
  rw [← denoted] at fits
  exact absurd fits (by decide)

/-- An integer beyond those with a sign does not come back from a script. -/
theorem great_unsigned_refused :
    IntegerType.uint64.contains 18446744073709551615 = true ∧
    ∃ v, (Datum.integer 18446744073709551615).toValue = .ok v ∧
      Destination.assign v (.slot ⟨.integer .uint64, .integer 0⟩) =
        (.slot ⟨.integer .uint64, .integer 0⟩, some (.notUnsigned "18446744073709551615")) :=
  ⟨by decide, _, rfl, rfl⟩

end Reckoner
