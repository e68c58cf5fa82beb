import Mathlib.Data.List.TakeWhile
import Reckoner.Proofs.Token.Reserved

/-!
The spans of tokens. What starts with a byte is a number, a word or a mark, and made of visible bytes, or
it is unexpected and takes no byte but that one.
-/

namespace Reckoner

namespace Byte

def isVisible (b : UInt8) : Bool := 0x20 < b && b < 0x7f

theorem isVisible_iff (b : UInt8) : isVisible b = true ↔ 0x20 < b.toNat ∧ b.toNat < 0x7f := by
  simp [isVisible, UInt8.lt_iff_toNat_lt]

theorem isVisible_of_isDigit {b : UInt8} (digit : isDigit b = true) : isVisible b = true := by
  simp [isDigit, isVisible_iff, UInt8.le_iff_toNat_le] at digit ⊢
  omega

theorem isVisible_of_isLetter {b : UInt8} (letter : isLetter b = true) : isVisible b = true := by
  simp [isLetter, isVisible_iff, UInt8.le_iff_toNat_le, ← UInt8.toNat_inj] at letter ⊢
  omega

theorem isVisible_of_isWord {b : UInt8} (word : isWord b = true) : isVisible b = true := by
  rw [isWord, Bool.or_eq_true] at word
  exact word.elim isVisible_of_isLetter isVisible_of_isDigit

theorem newline_not_mem {bytes : List UInt8} (visible : ∀ b ∈ bytes, isVisible b = true) :
    newline ∉ bytes := by
  intro member
  exact absurd (visible newline member) (by decide)

theorem encode_visible {b : UInt8} (visible : isVisible b = true) :
    String.utf8EncodeChar (Char.ofNat b.toNat) = [b] := by
  obtain ⟨-, bound⟩ := (isVisible_iff b).mp visible
  have valid : Nat.isValidChar b.toNat := .inl (by omega)
  have value : (Char.ofNat b.toNat).val.toNat = b.toNat := by
    rw [Char.ofNat, dif_pos valid]
    rfl
  have small : (Char.ofNat b.toNat).utf8Size = 1 := by
    rw [Char.utf8Size_eq_one_iff, UInt32.le_iff_toNat_le, value]
    change b.toNat ≤ 127
    omega
  rw [String.utf8EncodeChar_eq_singleton small]
  congr 1
  apply UInt8.toNat_inj.mp
  rw [UInt32.toNat_toUInt8, value]
  omega

theorem bytesOf_toText {bytes : List UInt8} (visible : ∀ b ∈ bytes, isVisible b = true) :
    bytesOf (toText bytes) = bytes := by
  rw [bytesOf, String.toUTF8, toText, String.toByteArray_ofList, List.utf8Encode,
    List.data_toByteArray, List.flatMap_map]
  induction bytes with
  | nil => rfl
  | cons b rest ih =>
      have others := ih fun x member => visible x (List.mem_cons_of_mem b member)
      simp only [List.flatMap_cons, encode_visible (visible b List.mem_cons_self)]
      simpa using others

theorem not_isDigit_of_isLetter {b : UInt8} (letter : isLetter b = true) : isDigit b = false := by
  simp [isLetter, isDigit, UInt8.le_iff_toNat_le, ← UInt8.toNat_inj] at letter ⊢
  omega

theorem isWord_of_isLetter {b : UInt8} (letter : isLetter b = true) : isWord b = true := by
  rw [isWord, letter, Bool.true_or]

end Byte

def Kind.marks : List Kind :=
  [.leftParen, .rightParen, .leftBrace, .rightBrace, .comma, .dot, .colon, .semicolon, .minus,
    .minusEqual, .plus, .plusEqual, .slash, .slashEqual, .star, .starEqual, .starStar, .starStarEqual,
    .bang, .bangEqual, .equal, .equalEqual, .greater, .greaterEqual, .less, .lessEqual]

namespace Cursor

def Begins (bytes : List UInt8) (length : Nat) : Prop :=
  ∃ span rest, bytes = span ++ rest ∧ span.length = length ∧
    ∀ b ∈ span, Byte.isVisible b = true

theorem Begins.append {a b : List UInt8} {n k : Nat} (visible : ∀ x ∈ a, Byte.isVisible x = true)
    (length : a.length = n) (begins : Begins b k) : Begins (a ++ b) (n + k) := by
  obtain ⟨span, rest, rfl, rfl, others⟩ := begins
  refine ⟨a ++ span, rest, (List.append_assoc ..).symm, by rw [List.length_append, length], ?_⟩
  intro x member
  rcases List.mem_append.mp member with first | second
  · exact visible x first
  · exact others x second

theorem Begins.cons {b : UInt8} {bytes : List UInt8} {k : Nat} (visible : Byte.isVisible b = true)
    (begins : Begins bytes k) : Begins (b :: bytes) (1 + k) := by
  refine Begins.append (a := [b]) ?_ rfl begins
  simpa using visible

theorem begins_zero (bytes : List UInt8) : Begins bytes 0 :=
  ⟨[], bytes, rfl, rfl, List.forall_mem_nil _⟩

theorem begins_takeWhile {p : UInt8 → Bool} (visible : ∀ b, p b = true → Byte.isVisible b = true)
    (bytes : List UInt8) : Begins bytes (bytes.takeWhile p).length :=
  ⟨bytes.takeWhile p, bytes.dropWhile p, List.takeWhile_append_dropWhile.symm, rfl,
    fun b member => visible b (List.mem_takeWhile_imp member)⟩

theorem drop_takeWhile (p : UInt8 → Bool) (bytes : List UInt8) :
    bytes.drop (bytes.takeWhile p).length = bytes.dropWhile p := by
  calc bytes.drop (bytes.takeWhile p).length
      = (bytes.takeWhile p ++ bytes.dropWhile p).drop (bytes.takeWhile p).length := by
        rw [List.takeWhile_append_dropWhile]
    _ = bytes.dropWhile p := List.drop_left

theorem numberTail_begins (rest : List UInt8) : Begins rest (numberTail rest) := by
  have digits := begins_takeWhile fun _ => Byte.isVisible_of_isDigit
  rw [numberTail, drop_takeWhile]
  split
  · rename_i point fraction behind
    dsimp only
    split
    · rename_i fractional
      rw [Bool.and_eq_true, beq_iff_eq] at fractional
      obtain ⟨rfl, -⟩ := fractional
      have visible : ∀ b ∈ rest.takeWhile Byte.isDigit, Byte.isVisible b = true :=
        fun b member => Byte.isVisible_of_isDigit (List.mem_takeWhile_imp member)
      have whole := Begins.append visible rfl ((digits fraction).cons (b := Byte.point) (by decide))
      rwa [← behind, List.takeWhile_append_dropWhile, ← Nat.add_assoc] at whole
    · exact digits rest
  · exact digits rest

inductive Classified (b : UInt8) (rest : List UInt8) : Kind × Nat → Prop where
  | number (starts : Byte.isDigit b = true ∨ b = Byte.point ∧ rest.head?.any Byte.isDigit = true) :
      Classified b rest (.number, 1 + numberTail rest)
  | word (letter : Byte.isLetter b = true) :
      Classified b rest (wordKind (b :: rest) (1 + (rest.takeWhile Byte.isWord).length),
        1 + (rest.takeWhile Byte.isWord).length)
  | mark {kind : Kind} {length : Nat} (known : kind ∈ Kind.marks) (positive : 0 < length)
      (begins : Begins (b :: rest) length) : Classified b rest (kind, length)
  | unexpected : Classified b rest (.error, 1)

theorem withEquals_mark {plain assigned : Kind} (first : plain ∈ Kind.marks)
    (second : assigned ∈ Kind.marks) (rest : List UInt8) :
    ∃ kind more, withEquals plain assigned rest = (kind, 1 + more) ∧ kind ∈ Kind.marks ∧
      Begins rest more := by
  rw [withEquals]
  split
  · rename_i equals
    obtain ⟨others, rfl⟩ := List.head?_eq_some_iff.mp (eq_of_beq equals)
    exact ⟨assigned, 1, rfl, second, (begins_zero others).cons (b := Byte.equals) (by decide)⟩
  · exact ⟨plain, 0, rfl, first, begins_zero rest⟩

section

variable {b : UInt8} (visible : Byte.isVisible b = true) (rest : List UInt8)

include visible

theorem Classified.one {kind : Kind} (known : kind ∈ Kind.marks) : Classified b rest (kind, 1) :=
  .mark known Nat.one_pos ((begins_zero rest).cons visible)

theorem Classified.withEquals {plain assigned : Kind} (first : plain ∈ Kind.marks)
    (second : assigned ∈ Kind.marks) :
    Classified b rest (Cursor.withEquals plain assigned rest) := by
  obtain ⟨kind, more, made, known, begins⟩ := withEquals_mark first second rest
  rw [made]
  exact .mark known (Nat.add_pos_left Nat.one_pos _) (begins.cons visible)

end

theorem classified (b : UInt8) (rest : List UInt8) : Classified b rest (classify b rest) := by
  unfold classify
  split
  · rename_i digit
    exact .number (.inl digit)
  · split
    · rename_i letter
      exact .word letter
    · split <;> try exact .one (by decide) rest (by decide)
      all_goals try exact .withEquals (by decide) rest (by decide) (by decide)
      · split
        · rename_i digit
          exact .number (.inr ⟨rfl, digit⟩)
        · exact .one (by decide) rest (by decide)
      · split
        · rename_i others
          obtain ⟨kind, more, made, known, begins⟩ := withEquals_mark
            (show Kind.starStar ∈ Kind.marks by decide) (show Kind.starStarEqual ∈ Kind.marks by decide)
            others
          have second := begins.cons (b := Byte.asterisk) (by decide)
          rw [made]
          dsimp only
          rw [Nat.add_comm]
          have both := second.cons (b := Byte.asterisk) (by decide)
          exact .mark known (Nat.add_pos_left Nat.one_pos _) both
        · exact .withEquals (by decide) rest (by decide) (by decide)
      · exact .unexpected

theorem classify_spec (b : UInt8) (rest : List UInt8) :
    (classify b rest).1 ≠ .eof ∧ 0 < (classify b rest).2 := by
  have token := classified b rest
  generalize classify b rest = made at token ⊢
  cases token with
  | number => exact ⟨nofun, Nat.add_pos_left Nat.one_pos _⟩
  | word => exact ⟨wordKind_ne (by decide) _ _, Nat.add_pos_left Nat.one_pos _⟩
  | mark known positive => exact ⟨ne_of_mem_of_not_mem known (by decide), positive⟩
  | unexpected => exact ⟨nofun, Nat.one_pos⟩

/-- A token of the given kind and length stands at the start of some bytes. An unexpected byte is a
token by itself, all others are made of visible bytes. -/
structure Takes (bytes : List UInt8) (token : Kind × Nat) : Prop where
  positive : 0 < token.2
  bound : token.2 ≤ bytes.length
  single : token.1 = .error → token.2 = 1
  visible : token.1 ≠ .error → ∀ b ∈ bytes.take token.2, Byte.isVisible b = true

theorem Begins.takes {bytes : List UInt8} {kind : Kind} {length : Nat} (begins : Begins bytes length)
    (known : kind ≠ .error) (positive : 0 < length) : Takes bytes (kind, length) := by
  obtain ⟨span, rest, rfl, rfl, visible⟩ := begins
  refine ⟨positive, ?_, fun failed => absurd failed known, fun _ => ?_⟩
  · rw [List.length_append]
    exact Nat.le_add_right ..
  · rw [List.take_left]
    exact visible

theorem classify_takes (b : UInt8) (rest : List UInt8) : Takes (b :: rest) (classify b rest) := by
  have positive := (classify_spec b rest).2
  have token := classified b rest
  generalize classify b rest = made at token positive ⊢
  cases token with
  | number starts =>
      have visible : Byte.isVisible b = true := by
        rcases starts with digit | ⟨rfl, -⟩
        · exact Byte.isVisible_of_isDigit digit
        · decide
      exact ((numberTail_begins rest).cons visible).takes (by decide) positive
  | word letter =>
      have word := begins_takeWhile (fun _ => Byte.isVisible_of_isWord) rest
      exact (word.cons (Byte.isVisible_of_isLetter letter)).takes (wordKind_ne (by decide) _ _) positive
  | mark known _ begins => exact begins.takes (ne_of_mem_of_not_mem known (by decide)) positive
  | unexpected => exact ⟨Nat.one_pos, by simp, fun _ => rfl, absurd rfl⟩

end Cursor

end Reckoner
