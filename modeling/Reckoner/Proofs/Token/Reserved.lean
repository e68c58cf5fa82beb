import Reckoner.Token.Scan

/-!
Words are recognised by comparing their bytes one after the other. What comes out is what the table of the
reserved words says, and no byte behind a word has a part in it.
-/

namespace Reckoner

namespace Cursor

def Suits (kind : Kind) (word : List UInt8) : Prop :=
  kind = .identifier ∨ kind ∈ Kind.keywords ∧ bytesOf kind.name = word

theorem confirm_suits {bytes : List UInt8} {length known : Nat} {ending : String} {kind : Kind}
    (reserved : kind ∈ Kind.keywords)
    (spelled : bytesOf kind.name = bytes.take known ++ bytesOf ending) :
    Suits (confirm bytes length known ending kind) (bytes.take length) := by
  rw [confirm]
  split
  · rename_i confirmed
    rw [Bool.and_eq_true, beq_iff_eq, beq_iff_eq] at confirmed
    obtain ⟨size, behind⟩ := confirmed
    have front : (bytes.take length).take known = bytes.take known := by
      rw [List.take_take, Nat.min_eq_left (by omega)]
    rw [← front, ← behind, List.take_append_drop] at spelled
    exact .inr ⟨reserved, spelled⟩
  · exact .inl rfl

theorem wordKind_suits (bytes : List UInt8) (length : Nat) :
    Suits (wordKind bytes length) (bytes.take length) := by
  unfold wordKind
  split <;> try exact confirm_suits (by decide) rfl
  · split
    · split <;> try exact confirm_suits (by decide) rfl
      exact .inl rfl
    · exact .inl rfl
  · exact .inl rfl

theorem wordKind_name {k : Kind} (reserved : k ∈ Kind.keywords) (rest : List UInt8) :
    wordKind (bytesOf k.name ++ rest) (bytesOf k.name).length = k := by
  cases k <;> first | rfl | exact absurd reserved (by decide)

theorem wordKind_mem (bytes : List UInt8) (length : Nat) :
    wordKind bytes length ∈ Kind.identifier :: Kind.keywords := by
  rcases wordKind_suits bytes length with other | ⟨reserved, -⟩
  · rw [other]
    exact List.mem_cons_self
  · exact List.mem_cons_of_mem _ reserved

theorem wordKind_ne {kind : Kind} (outside : kind ∉ Kind.identifier :: Kind.keywords)
    (bytes : List UInt8) (length : Nat) : wordKind bytes length ≠ kind := by
  intro same
  rw [← same] at outside
  exact outside (wordKind_mem bytes length)

section

variable {bytes : List UInt8} {length : Nat} (inside : length ≤ bytes.length)

include inside

theorem wordKind_eq_iff {k : Kind} (reserved : k ∈ Kind.keywords) :
    wordKind bytes length = k ↔ bytesOf k.name = bytes.take length := by
  constructor
  · rintro rfl
    rcases wordKind_suits bytes length with other | ⟨-, spelled⟩
    · rw [other] at reserved
      exact absurd reserved (by decide)
    · exact spelled
  · intro spelled
    have whole := wordKind_name reserved (bytes.drop length)
    rwa [spelled, List.take_append_drop, List.length_take_of_le inside] at whole

theorem wordKind_eq_identifier_iff :
    wordKind bytes length = .identifier ↔ ∀ k ∈ Kind.keywords, bytesOf k.name ≠ bytes.take length := by
  constructor
  · intro other k reserved spelled
    rw [(wordKind_eq_iff inside reserved).mpr spelled] at other
    rw [other] at reserved
    exact absurd reserved (by decide)
  · intro others
    rcases wordKind_suits bytes length with other | ⟨reserved, spelled⟩
    · exact other
    · exact absurd spelled (others _ reserved)

end

theorem wordKind_append {front : List UInt8} {length : Nat} (inside : length ≤ front.length)
    (rest : List UInt8) : wordKind (front ++ rest) length = wordKind front length := by
  have longer : length ≤ (front ++ rest).length := by
    rw [List.length_append]
    omega
  have same : (front ++ rest).take length = front.take length := List.take_append_of_le_length inside
  rcases wordKind_suits front length with other | ⟨reserved, spelled⟩
  · rw [other, wordKind_eq_identifier_iff longer, same]
    exact (wordKind_eq_identifier_iff inside).mp other
  · rw [wordKind_eq_iff longer reserved, same]
    exact spelled

end Cursor

end Reckoner
