import Reckoner.Proofs.Token.Tiling

/-!
Words of a source. A token that starts with a letter takes all that goes on like a word, and the table of
the reserved words says whether it is one of them.
-/

namespace Reckoner

theorem bytesOf_injective : Function.Injective bytesOf := by
  intro text other same
  have arrays : text.toByteArray = other.toByteArray :=
    ByteArray.ext (Array.toList_inj.mp same)
  exact String.toByteArray_inj.mp arrays

/-- The longest run of letters, digits and underscores at the start of some bytes. -/
structure LongestWord (bytes word : List UInt8) : Prop where
  begins : word <+: bytes
  all : ∀ b ∈ word, Byte.isWord b = true
  longest : ∀ other, other <+: bytes → (∀ b ∈ other, Byte.isWord b = true) →
    other.length ≤ word.length

theorem longestWord_takeWhile (bytes : List UInt8) :
    LongestWord bytes (bytes.takeWhile Byte.isWord) where
  begins := List.takeWhile_prefix _
  all _ member := List.mem_takeWhile_imp member
  longest := by
    rintro other ⟨rest, rfl⟩ all
    rw [List.takeWhile_append_of_pos all, List.length_append]
    exact Nat.le_add_right ..

namespace LongestWord

variable {bytes word : List UInt8} (longest : LongestWord bytes word)

include longest

theorem taken : bytes.take word.length = word := (List.prefix_iff_eq_take.mp longest.begins).symm

theorem spelled : bytesOf (Byte.toText word) = word :=
  Byte.bytesOf_toText fun b member => Byte.isVisible_of_isWord (longest.all b member)

theorem bytesOf_name_iff (k : Kind) : bytesOf k.name = word ↔ k.name = Byte.toText word := by
  rw [← bytesOf_injective.eq_iff, longest.spelled]

theorem kind_eq_iff {k : Kind} (reserved : k ∈ Kind.keywords) :
    Cursor.wordKind bytes word.length = k ↔ k.name = Byte.toText word := by
  rw [Cursor.wordKind_eq_iff longest.begins.length_le reserved, longest.taken]
  exact longest.bytesOf_name_iff k

theorem kind_eq_identifier_iff : Cursor.wordKind bytes word.length = .identifier ↔
    Byte.toText word ∉ Kind.keywords.map Kind.name := by
  rw [Cursor.wordKind_eq_identifier_iff longest.begins.length_le, longest.taken, List.mem_map,
    not_exists]
  simp only [ne_eq, longest.bytesOf_name_iff, not_and]

end LongestWord

/-- A token is a word of a source: it takes the longest run from its start on, and it is the reserved word
of this name, or an identifier if there is none. -/
structure Token.IsWord (source : List UInt8) (t : Token) : Prop where
  run : LongestWord (source.drop t.start) (bytesOf t.lexeme)
  reserved : ∀ k ∈ Kind.keywords, t.kind = k ↔ k.name = t.lexeme
  identifier : t.kind = .identifier ↔ t.lexeme ∉ Kind.keywords.map Kind.name

namespace Cursor

theorem classify_letter {b : UInt8} (letter : Byte.isLetter b = true) (rest : List UInt8) :
    classify b rest = (wordKind (b :: rest) ((b :: rest).takeWhile Byte.isWord).length,
      ((b :: rest).takeWhile Byte.isWord).length) := by
  have noDigit : ¬Byte.isDigit b = true := by simp [Byte.not_isDigit_of_isLetter letter]
  unfold classify
  rw [if_neg noDigit, if_pos letter, List.takeWhile_cons_of_pos (Byte.isWord_of_isLetter letter),
    List.length_cons, Nat.add_comm]

section

variable {source : List UInt8} {c : Cursor} (stands : c.Stands source)

include stands

theorem Stands.isWord {b : UInt8} (first : source[c.next.1.start]? = some b)
    (letter : Byte.isLetter b = true) : c.next.1.IsWord source := by
  obtain ⟨reached, -, -⟩ := stands.skipped
  have here : source[c.skipped.offset]? = c.skipped.rest[0]? := by
    rw [reached.rest, List.getElem?_drop, Nat.add_zero]
  cases behind : c.skipped.rest with
  | nil =>
      rw [next_last behind, here, behind] at first
      exact absurd first (by simp)
  | cons x rest =>
      have start : c.next.1.start = c.skipped.offset := by rw [next_token behind rfl]
      rw [start, here, behind] at first
      obtain rfl : x = b := Option.some.inj first
      have read := next_token behind (classify_letter letter rest)
      have longest := longestWord_takeWhile (x :: rest)
      generalize (x :: rest).takeWhile Byte.isWord = word at read longest
      have known : wordKind (x :: rest) word.length ≠ .error := wordKind_ne (by decide) _ _
      rw [lexemeOf, if_neg known, longest.taken] at read
      rw [read]
      constructor
      case run =>
        rw [longest.spelled]
        rwa [← behind, reached.rest] at longest
      case reserved => exact fun k reserved => longest.kind_eq_iff reserved
      case identifier => exact longest.kind_eq_identifier_iff

theorem Stands.exists_of_mem_take {n : Nat} {t : Token} (read : t ∈ c.take n) :
    ∃ d : Cursor, d.Stands source ∧ t = d.next.1 := by
  induction n generalizing c with
  | zero => exact absurd read List.not_mem_nil
  | succ n ih =>
      change t ∈ c.next.1 :: c.next.2.take n at read
      rcases List.mem_cons.mp read with rfl | read
      · exact ⟨c, stands, rfl⟩
      · rcases stands.next with ends | advances
        · rw [take_again ends.again] at read
          exact ⟨c, stands, List.eq_of_mem_replicate read⟩
        · exact ih advances.stands read

end

end Cursor

/-- Words are recognised: a token that starts with a letter or an underscore is the longest word that
stands there, whatever is in front of it and behind it, and its kind is what the table says. -/
theorem words_recognised {source : List UInt8} {n : Nat} {t : Token} {b : UInt8}
    (read : t ∈ (Cursor.ofBytes source).take n) (first : source[t.start]? = some b)
    (letter : Byte.isLetter b = true) : t.IsWord source := by
  obtain ⟨d, stands, rfl⟩ := (Cursor.Stands.start source).exists_of_mem_take read
  exact stands.isWord first letter

theorem words_recognised_behind_number :
    ∃ t ∈ (Cursor.ofBytes (bytesOf "3for")).take 2, (bytesOf "3for")[t.start]? = some 0x66 ∧
      Byte.isLetter 0x66 = true ∧ t.lexeme = "for" ∧ t.kind = .for ∧ t.IsWord (bytesOf "3for") := by
  have read : (⟨.for, "for", 1, 1, 4⟩ : Token) ∈ (Cursor.ofBytes (bytesOf "3for")).take 2 := by decide
  have first : (bytesOf "3for")[1]? = some 0x66 := by decide
  have letter : Byte.isLetter 0x66 = true := by decide
  exact ⟨_, read, first, letter, rfl, rfl, words_recognised read first letter⟩

example : (scan (bytesOf "f fo for2 _for for")).map Token.kind =
    [.identifier, .identifier, .identifier, .identifier, .for, .eof] := by decide

end Reckoner
