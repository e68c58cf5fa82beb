import Reckoner.Proofs.Decimal.Display
import Reckoner.Proofs.Editor.Declared
import Reckoner.Proofs.Editor.Marks
import Reckoner.Proofs.Token.Spacing

/-!
Texts of values. A number, a truth value and a compiled function are each shown on one line that is not
empty; the name of a function is a word of its source.
-/

namespace Reckoner

/-- A value whose display text is one line, and not an empty one. -/
structure Value.Legible (v : Value) : Prop where
  nonempty : v.display ≠ ""
  inLine : '\n' ∉ v.display.toList

theorem newline_not_mem_toDigits (n : Nat) : '\n' ∉ Nat.toDigits 10 n := by
  intro member
  exact absurd ((digits_toDigits n).all '\n' member) (by decide)

theorem Text.newline_not_mem_integer (n : Int) : '\n' ∉ (Text.integer n).toList := by
  rw [Text.integer, Text.natural]
  split <;> simp [newline_not_mem_toDigits]

namespace Decimal

theorem newline_not_mem_coefficientChars (n : Int) : '\n' ∉ coefficientChars n := by
  rw [coefficientChars, digitsOf_eq]
  split <;> simp [newline_not_mem_toDigits]

theorem exists_mem_coefficientChars {n : Int} (nonzero : n ≠ 0) :
    ∃ c ∈ coefficientChars n, c ≠ '0' := by
  rw [coefficientChars, digitsOf_eq]
  split
  · exact ⟨'-', List.mem_cons_self, by decide⟩
  · have lead := head?_toDigits (n := n.natAbs) (Int.natAbs_pos.mpr nonzero)
    have some : Nat.toDigits 10 n.natAbs ≠ [] := Nat.toDigits_ne_nil
    obtain ⟨c, rest, digits⟩ := List.exists_cons_of_ne_nil some
    rw [digits] at lead ⊢
    exact ⟨c, List.mem_cons_self, fun zero => lead (congrArg Option.some zero)⟩

theorem mem_of_mem_trimZeros {digits : List Char} {c : Char} (member : c ∈ (trimZeros digits).1) :
    c ∈ digits := by
  rw [trimZeros, List.mem_reverse] at member
  exact List.mem_reverse.mp ((List.dropWhile_sublist _).mem member)

theorem trimZeros_ne_nil {digits : List Char} (stays : ∃ c ∈ digits, c ≠ '0') :
    (trimZeros digits).1 ≠ [] := by
  obtain ⟨c, member, nonzero⟩ := stays
  intro empty
  rw [trimZeros, List.reverse_eq_nil_iff, List.dropWhile_eq_nil_iff] at empty
  have zero := empty c (List.mem_reverse.mpr member)
  exact nonzero (eq_of_beq zero)

theorem newline_not_mem_plain {digits : List Char} (inLine : '\n' ∉ digits) (e : Int) :
    '\n' ∉ plain digits e := by
  have zeros : ∀ k, '\n' ∉ zeros k := fun k member => absurd (isDigit_of_mem_zeros member) (by decide)
  rw [plain]
  split
  · simp [zeros, inLine]
  · rw [withPoint]
    split
    · exact inLine
    · intro member
      rcases List.mem_append.mp member with whole | fraction
      · have padded := List.mem_of_mem_take whole
        simp [zeros, inLine] at padded
      · rcases List.mem_cons.mp fraction with point | behind
        · exact absurd point (by decide)
        · have padded := List.mem_of_mem_drop behind
          simp [zeros, inLine] at padded

theorem plain_ne_nil {digits : List Char} (some : digits ≠ []) (e : Int) : plain digits e ≠ [] := by
  rw [plain]
  split
  · simp [some]
  · rw [withPoint]
    split
    · exact some
    · simp

theorem newline_not_mem_displayChars (d : Decimal) : '\n' ∉ d.displayChars := by
  have signed : ∀ negative text, '\n' ∉ text → '\n' ∉ signed negative text := by
    intro negative text inLine
    cases negative <;> simp [Decimal.signed, inLine]
  rw [displayChars]
  split
  · decide
  · split
    · apply signed
      apply newline_not_mem_plain
      exact fun member => newline_not_mem_coefficientChars _ (mem_of_mem_trimZeros member)
    · apply signed
      cases d.form <;> decide

theorem displayChars_ne_nil (d : Decimal) : d.displayChars ≠ [] := by
  have signed : ∀ negative text, text ≠ [] → signed negative text ≠ [] := by
    intro negative text some
    cases negative <;> simp [Decimal.signed, some]
  rw [displayChars]
  split
  · simp
  · rename_i nonzero
    split
    · rename_i finite
      have coefficient : d.coefficient ≠ 0 := by
        intro zero
        rw [isZero, finite, zero] at nonzero
        exact nonzero rfl
      exact signed _ _ (plain_ne_nil (trimZeros_ne_nil (exists_mem_coefficientChars coefficient)) _)
    · apply signed
      cases d.form <;> decide

end Decimal

theorem Value.legible_number (d : Decimal) : (Value.number d).Legible where
  nonempty := mt String.ofList_eq_empty_iff.mp d.displayChars_ne_nil
  inLine := by
    rw [display, Decimal.display, String.toList_ofList]
    exact d.newline_not_mem_displayChars

/-! Words of a source -/

theorem Byte.newline_not_mem_toText {bytes : List UInt8} (visible : ∀ b ∈ bytes, isVisible b = true) :
    '\n' ∉ (toText bytes).toList := by
  have none : (bytesOf (toText bytes)).count newline = 0 := by
    rw [bytesOf_toText visible]
    exact List.count_eq_zero.mpr (newline_not_mem visible)
  rw [count_newline] at none
  exact List.count_eq_zero.mp none

namespace Cursor

theorem newline_not_mem_next {c : Cursor} (known : c.next.1.kind ≠ .error) :
    '\n' ∉ c.next.1.lexeme.toList := by
  cases behind : c.skipped.rest with
  | nil =>
      rw [next_last behind]
      exact List.not_mem_nil
  | cons b rest =>
      have takes := classify_takes b rest
      rw [next_token behind rfl] at known ⊢
      rw [lexemeOf, if_neg known]
      exact Byte.newline_not_mem_toText (takes.visible known)

theorem Reads.newline_not_mem {c : Cursor} {ts : List Token} (reads : c.Reads ts) :
    ∀ t ∈ ts, t.kind ≠ .error → '\n' ∉ t.lexeme.toList := by
  induction reads with
  | @last c ends =>
      intro t member known
      obtain rfl := List.mem_singleton.mp member
      exact newline_not_mem_next known
  | @more c ts goes others ih =>
      intro t member known
      rcases List.mem_cons.mp member with rfl | later
      · exact newline_not_mem_next known
      · exact ih t later known

end Cursor

theorem Editor.mem_namesAfter {previous : Kind} {ts : List Token} {name : String}
    (found : name ∈ namesAfter previous ts) : ∃ t ∈ ts, t.kind = .identifier ∧ t.lexeme = name := by
  induction ts generalizing previous with
  | nil => cases found
  | cons t rest ih =>
      have later : name ∈ namesAfter t.kind rest →
          ∃ u ∈ t :: rest, u.kind = .identifier ∧ u.lexeme = name := by
        intro behind
        obtain ⟨u, member, word⟩ := ih behind
        exact ⟨u, List.mem_cons_of_mem t member, word⟩
      rw [namesAfter] at found
      split at found
      · rename_i declares
        rw [Bool.and_eq_true, beq_iff_eq] at declares
        rcases List.mem_cons.mp found with rfl | behind
        · exact ⟨t, List.mem_cons_self, declares.1, rfl⟩
        · exact later behind
      · exact later found

/-! Names of functions -/

namespace Script

mutual

theorem Statement.declared_inside (s : Statement) {f : Function} (inside : f ∈ s.functions) :
    ∀ name ∈ f.declared, name ∈ s.declared := by
  match s with
  | .ifElse c t e =>
      intro name declared
      rcases List.mem_append.mp inside with first | second
      · exact List.mem_append_left _ (t.declared_inside first name declared)
      · exact List.mem_append_right _ (e.declared_inside second name declared)
  | .while c t => exact t.declared_inside inside
  | .for first c step t =>
      intro name declared
      exact List.mem_append_right _ (t.declared_inside inside name declared)
  | .block body => exact declared_inside body inside
  | .empty | .print _ | .expression _ | .break | .continue | .return _ => cases inside

theorem Declaration.declared_inside (d : Declaration) {f : Function} (inside : f ∈ d.functions) :
    ∀ name ∈ f.declared, name ∈ d.declared := by
  match d with
  | .var name value => cases inside
  | .function g =>
      obtain rfl := List.mem_singleton.mp inside
      exact fun name declared => declared
  | .statement s => exact s.declared_inside inside

theorem declared_inside (body : List Declaration) {f : Function} (inside : f ∈ functionsOf body) :
    ∀ name ∈ f.declared, name ∈ declaredIn body := by
  match body with
  | [] => cases inside
  | d :: rest =>
      intro name declared
      rcases List.mem_append.mp inside with first | later
      · exact List.mem_append_left _ (d.declared_inside first name declared)
      · exact List.mem_append_right _ (declared_inside rest later name declared)

end

theorem Function.Contains.declared {f g : Function} (contains : f.Contains g) :
    ∀ name ∈ g.declared, name ∈ f.declared := by
  induction contains with
  | self => exact fun name declared => declared
  | @inner g h contained inside ih =>
      intro name declared
      obtain ⟨index, own, parameters, body, result⟩ := g
      exact ih name (List.mem_cons_of_mem own (declared_inside body inside name declared))

theorem Function.name_declared (f : Function) : f.name ∈ f.declared := by
  obtain ⟨index, name, parameters, body, result⟩ := f
  exact List.mem_cons_self

theorem Implements.name_declared {unit : Nat} {isGlobal : Bool} {r q : Routine} {f : Function}
    (implements : Implements unit isGlobal r f) (nested : r.Nested q) : q.name ∈ f.declared := by
  obtain ⟨inner, g, contains, image⟩ := implements.of_nested nested
  obtain ⟨marked, carries⟩ := image.carries
  rw [carries.name]
  exact contains.declared g.name g.name_declared

end Script

open Script

theorem Routine.Compiled.newline_not_mem_name {r : Routine} (compiled : r.Compiled) :
    '\n' ∉ r.name.toList := by
  have unnamed : '\n' ∉ ("" : String).toList := List.not_mem_nil
  obtain ⟨unit, source, top, accepted, nested⟩ := compiled
  rcases accepted with script | expression
  · obtain ⟨body, sentence, -, -, implements, -⟩ := script_accepted script
    rcases List.mem_cons.mp (implements.name_declared nested) with none | word
    · rw [none]
      exact unnamed
    · rw [← sentence.namesAfter_eq] at word
      obtain ⟨t, member, kind, lexeme⟩ := Editor.mem_namesAfter word
      rw [← lexeme]
      apply (scan_reads source).newline_not_mem t member
      rw [kind]
      decide
  · obtain ⟨e, -, -, implements, -⟩ := expression_accepted expression
    have none : r.name = "" := List.mem_singleton.mp (implements.name_declared nested)
    rw [none]
    exact unnamed

namespace Value

theorem legible_routine {r : Routine} (compiled : r.Compiled) : (Value.routine r).Legible := by
  constructor
  · rw [display, Routine.display]
    split
    · decide
    · simp [← String.toList_eq_nil_iff]
  · rw [display, Routine.display]
    split
    · decide
    · simp [compiled.newline_not_mem_name, Text.newline_not_mem_integer]

theorem legible_native {n : Native} (inLine : '\n' ∉ n.name.toList) : (Value.native n).Legible := by
  constructor
  · simp [display, ← String.toList_eq_nil_iff]
  · simp [display, inLine]

/-- What a script makes of literals, its own functions and the standard natives. -/
def Scripted : Value → Prop
  | .bool _ | .number _ => True
  | .routine r => r.Compiled
  | .native n => n ∈ Machine.standardNatives
  | .text _ | .foreign => False

theorem Scripted.legible {v : Value} (scripted : v.Scripted) : v.Legible := by
  cases v with
  | bool b => cases b <;> exact ⟨by decide, by decide⟩
  | number d => exact legible_number d
  | routine r => exact legible_routine scripted
  | native n =>
      have names : ∀ n ∈ Machine.standardNatives, '\n' ∉ n.name.toList := by decide
      exact legible_native (names n scripted)
  | text | foreign => exact scripted.elim

end Value

end Reckoner
