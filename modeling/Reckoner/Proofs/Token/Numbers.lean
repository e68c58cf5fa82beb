import Reckoner.Proofs.Decimal.Numeral
import Reckoner.Proofs.Token.Tiling

/-!
How the scanner spells numbers. A number token that starts with a digit is a numeral; one that starts
with a point takes the digits behind it, and where another point follows, its digits too.
-/

namespace Reckoner

theorem bytesOf_eq (text : String) : bytesOf text = text.toList.flatMap String.utf8EncodeChar := by
  rw [bytesOf, String.toUTF8, ← String.utf8Encode_toList, List.utf8Encode, List.data_toByteArray]

theorem length_le_bytes (text : String) : text.toList.length ≤ (bytesOf text).length := by
  rw [bytesOf_eq]
  induction text.toList with
  | nil => exact Nat.le_refl _
  | cons c rest ih =>
      have positive := c.utf8Size_pos
      rw [List.flatMap_cons, List.length_append, String.length_utf8EncodeChar, List.length_cons]
      omega

namespace Byte

theorem toText_toList (bytes : List UInt8) :
    (toText bytes).toList = bytes.map fun b => Char.ofNat b.toNat := String.toList_ofList

theorem isDigit_toChar {b : UInt8} (digit : isDigit b = true) :
    (Char.ofNat b.toNat).isDigit = true := by
  simp only [isDigit, Bool.and_eq_true, decide_eq_true_eq, UInt8.le_iff_toNat_le] at digit
  obtain ⟨low, high⟩ := digit
  change 48 ≤ b.toNat at low
  change b.toNat ≤ 57 at high
  have value : (Char.ofNat b.toNat).toNat = b.toNat := by
    rw [Char.ofNat, dif_pos (.inl (by omega))]
    rfl
  rw [Char.isDigit_iff_toNat, value]
  exact ⟨low, high⟩

theorem digits_toText {bytes : List UInt8} (digits : ∀ b ∈ bytes, isDigit b = true)
    (nonempty : bytes ≠ []) : Digits (bytes.map fun b => Char.ofNat b.toNat) where
  nonempty := by simpa using nonempty
  all := by
    intro c member
    obtain ⟨b, inside, rfl⟩ := List.mem_map.mp member
    exact isDigit_toChar (digits b inside)

end Byte

namespace Cursor

theorem numberTail_take (rest : List UInt8) :
    rest.take (numberTail rest) = rest.takeWhile Byte.isDigit ∨
      ∃ fraction, fraction ≠ [] ∧ (∀ b ∈ fraction, Byte.isDigit b = true) ∧
        rest.take (numberTail rest) = rest.takeWhile Byte.isDigit ++ Byte.point :: fraction := by
  have digits : rest.take (rest.takeWhile Byte.isDigit).length = rest.takeWhile Byte.isDigit :=
    List.prefix_iff_eq_take.mp (List.takeWhile_prefix _) |>.symm
  rw [numberTail, drop_takeWhile]
  split
  · rename_i p more behind
    dsimp only
    split
    · rename_i fractional
      rw [Bool.and_eq_true, beq_iff_eq, decide_eq_true_iff] at fractional
      obtain ⟨rfl, some⟩ := fractional
      refine .inr ⟨more.takeWhile Byte.isDigit, List.length_pos_iff.mp some,
        fun b member => List.mem_takeWhile_imp member, ?_⟩
      have whole : rest = rest.takeWhile Byte.isDigit ++ Byte.point :: more := by
        rw [← behind, List.takeWhile_append_dropWhile]
      have taken : more.take (more.takeWhile Byte.isDigit).length = more.takeWhile Byte.isDigit :=
        List.prefix_iff_eq_take.mp (List.takeWhile_prefix _) |>.symm
      generalize rest.takeWhile Byte.isDigit = before at whole ⊢
      rw [whole, Nat.add_assoc, List.take_length_add_append, Nat.add_comm 1, List.take_succ_cons, taken]
    · exact .inl digits
  · exact .inl digits

theorem classify_number {b : UInt8} {rest : List UInt8} (number : (classify b rest).1 = .number) :
    (classify b rest).2 = 1 + numberTail rest ∧
      (Byte.isDigit b = true ∨ b = Byte.point ∧ rest.head?.any Byte.isDigit = true) := by
  have token := classified b rest
  generalize classify b rest = made at token number ⊢
  cases token with
  | number starts => exact ⟨rfl, starts⟩
  | word => exact absurd number (wordKind_ne (by decide) _ _)
  | mark known => exact absurd number (ne_of_mem_of_not_mem known (by decide))
  | unexpected => exact absurd number (by decide)

theorem number_spelled {b : UInt8} {rest : List UInt8} (number : (classify b rest).1 = .number) :
    Numeral (Byte.toText ((b :: rest).take (classify b rest).2)).toList ∨
      TwoPoints (Byte.toText ((b :: rest).take (classify b rest).2)).toList := by
  obtain ⟨length, starts⟩ := classify_number number
  rw [length, Nat.add_comm, List.take_succ_cons, Byte.toText_toList]
  have digits : ∀ x ∈ rest.takeWhile Byte.isDigit, Byte.isDigit x = true :=
    fun x member => List.mem_takeWhile_imp member
  rcases starts with digit | ⟨rfl, behind⟩
  · have whole : Digits ((b :: rest.takeWhile Byte.isDigit).map fun x => Char.ofNat x.toNat) :=
      Byte.digits_toText (List.forall_mem_cons.mpr ⟨digit, digits⟩) nofun
    left
    rcases numberTail_take rest with taken | ⟨fraction, some, fractional, taken⟩
    · rw [taken]
      exact .whole whole
    · rw [taken, ← List.cons_append, List.map_append]
      exact .pointed whole (Byte.digits_toText fractional some)
  · have some : rest.takeWhile Byte.isDigit ≠ [] := by
      cases rest with
      | nil => exact absurd behind (by decide)
      | cons x more =>
          have digit : Byte.isDigit x = true := behind
          rw [List.takeWhile_cons_of_pos digit]
          exact nofun
    have first := Byte.digits_toText digits some
    rcases numberTail_take rest with taken | ⟨fraction, more, fractional, taken⟩
    · rw [taken]
      exact .inl (.bare first)
    · rw [taken, ← List.cons_append, List.map_append]
      exact .inr (.intro first (Byte.digits_toText fractional more))

theorem next_number {c : Cursor} (number : c.next.1.kind = .number) :
    Numeral c.next.1.lexeme.toList ∨ TwoPoints c.next.1.lexeme.toList := by
  revert number
  simp only [next]
  split
  · exact fun other => absurd (show Kind.eof = .number from other) (by decide)
  · rename_i b rest rests
    dsimp only
    intro number
    rw [rests, lexemeOf, if_neg (by rw [number]; decide)]
    exact number_spelled number

theorem collect_all {holds : Token → Prop} (each : ∀ c : Cursor, holds c.next.1) {fuel : Nat}
    {c : Cursor} {found : Array Token} (before : ∀ t ∈ found, holds t) :
    ∀ t ∈ (c.collect fuel found).1, holds t := by
  induction fuel generalizing c found with
  | zero => exact before
  | succ fuel ih =>
      have pushed : ∀ t ∈ found.push c.next.1, holds t := by
        intro t member
        rcases Array.mem_push.mp member with old | rfl
        · exact before t old
        · exact each c
      rw [collect]
      dsimp only
      split
      · exact pushed
      · exact ih pushed

end Cursor

theorem scan_all {holds : Token → Prop} (each : ∀ c : Cursor, holds c.next.1) (source : List UInt8) :
    ∀ t ∈ scan source, holds t := fun t member =>
  Cursor.collect_all each (fun _ none => absurd none (Array.not_mem_empty _)) t
    (Array.mem_toList_iff.mp member)

def Token.Spelled (t : Token) : Prop :=
  t.kind = .number → Numeral t.lexeme.toList ∨ TwoPoints t.lexeme.toList

theorem scan_spelled (source : List UInt8) : ∀ t ∈ scan source, t.Spelled :=
  scan_all (fun _ => Cursor.next_number) source

end Reckoner
