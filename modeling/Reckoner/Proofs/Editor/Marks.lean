import Reckoner.Editor.Basic
import Reckoner.Proofs.Compiler.Lines
import Reckoner.Proofs.Token.Numbers

/-!
Marks on lines. What the compiler reports is in the order of the source and on lines that the source has,
so an editor finds each line that it marks, and marks it to its end.
-/

namespace Reckoner

namespace Text

theorem modifyHead_nil_append (pieces : List (List Char)) : pieces.modifyHead ([] ++ ·) = pieces := by
  cases pieces <;> rfl

theorem splitOnto_eq (separator : Char) (pieces : List String) (piece text : List Char) :
    splitOnto separator pieces piece text = pieces.reverse ++
      ((text.splitOn separator).modifyHead (piece.reverse ++ ·)).map String.ofList := by
  induction text generalizing pieces piece with
  | nil => simp [splitOnto]
  | cons c rest ih =>
      rw [splitOnto, List.splitOn, List.splitOnP_cons_eq_if_modifyHead]
      split
      · rename_i same
        rw [ih, if_pos (by simpa using same), List.splitOn, List.reverse_nil, modifyHead_nil_append]
        simp
      · rename_i other
        rw [ih, if_neg (by simpa using other), List.splitOn, List.modifyHead_modifyHead]
        simp [Function.comp_def]

theorem cut_eq (separator : Char) (s : String) :
    cut separator s = (s.toList.splitOn separator).map String.ofList := by
  rw [cut, splitOnto_eq, List.reverse_nil, List.reverse_nil, modifyHead_nil_append, List.nil_append]

theorem length_cut (separator : Char) (s : String) : (cut separator s).length = 1 + s.toList.count separator := by
  rw [cut_eq, List.length_map, List.splitOn]
  induction s.toList with
  | nil => simp
  | cons c rest ih =>
      rw [List.splitOnP_cons_eq_if_modifyHead, List.count_cons]
      split
      · rw [List.length_cons, ih]
        omega
      · rw [List.length_modifyHead, ih]
        omega

end Text

theorem Byte.ofNat_ne_newline {n : Nat} (high : 128 ≤ n) (low : n < 256) : UInt8.ofNat n ≠ newline := by
  intro same
  have value := congrArg UInt8.toNat same
  rw [UInt8.toNat_ofNat', Nat.mod_eq_of_lt low] at value
  change n = 10 at value
  omega

theorem count_utf8EncodeChar (c : Char) :
    (String.utf8EncodeChar c).count Byte.newline = if c = '\n' then 1 else 0 := by
  have newline : c = '\n' ↔ c.val.toNat = 10 := by
    rw [← Char.val_inj, ← UInt32.toNat_inj]
    rfl
  by_cases single : c.val.toNat ≤ 127
  · have byte : UInt8.ofNat c.val.toNat = Byte.newline ↔ c.val.toNat = 10 := by
      rw [← UInt8.toNat_inj, UInt8.toNat_ofNat', Nat.mod_eq_of_lt (by omega)]
      rfl
    rw [String.utf8EncodeChar, if_pos single, List.count_singleton]
    simp only [beq_iff_eq, byte, newline]
  · have none : ∀ b ∈ String.utf8EncodeChar c, b ≠ Byte.newline := by
      intro b member
      simp only [String.utf8EncodeChar, if_neg single] at member
      split at member
      · simp only [List.mem_cons, List.not_mem_nil, or_false] at member
        rcases member with rfl | rfl <;> exact Byte.ofNat_ne_newline (by omega) (by omega)
      · split at member
        · simp only [List.mem_cons, List.not_mem_nil, or_false] at member
          rcases member with rfl | rfl | rfl <;> exact Byte.ofNat_ne_newline (by omega) (by omega)
        · simp only [List.mem_cons, List.not_mem_nil, or_false] at member
          rcases member with rfl | rfl | rfl | rfl <;> exact Byte.ofNat_ne_newline (by omega) (by omega)
    rw [if_neg (by rw [newline]; omega), List.count_eq_zero]
    exact fun member => none _ member rfl

theorem count_newline (text : String) : (bytesOf text).count Byte.newline = text.toList.count '\n' := by
  rw [bytesOf_eq]
  induction text.toList with
  | nil => rfl
  | cons c rest ih =>
      rw [List.flatMap_cons, List.count_append, ih, count_utf8EncodeChar, List.count_cons, Nat.add_comm]
      simp

theorem Editor.marks_inside {text : String} {m : Editor.Mark} (member : m ∈ Editor.marks text) :
    ∃ line, (text.toList.splitOn '\n')[m.line]? = some line ∧ m.stop = (String.ofList line).utf8ByteSize := by
  rw [Editor.marks] at member
  split at member
  · cases member
  · rename_i ds rejected
    obtain ⟨d, reported, rfl⟩ := List.mem_map.mp member
    obtain ⟨positive, bound⟩ := (Compiler.rejected_lines rejected).2 d reported
    rw [count_newline, ← Text.length_cut] at bound
    have inside : d.line - 1 < (Text.cut '\n' text).length := by omega
    obtain ⟨whole, found⟩ : ∃ whole, (Text.cut '\n' text)[d.line - 1]? = some whole :=
      ⟨_, List.getElem?_eq_getElem inside⟩
    have piece := found
    rw [Text.cut_eq, List.getElem?_map] at piece
    obtain ⟨line, there, same⟩ := Option.map_eq_some_iff.mp piece
    refine ⟨line, there, ?_⟩
    simp only [Editor.Mark.ofDiagnostic, found, same]
    rfl

/-- What is reported of a source comes in the order of its lines and lies on them, and from one
synchronization of the compiler to the next there is one report at most. An editor marks lines of its
document, each up to its end. -/
theorem diagnostics_in_order :
    (∀ unit source ds, compileBytes unit source = .error ds →
      (ds.map Diagnostic.line).Pairwise (· ≤ ·) ∧
      (∀ d ∈ ds, 1 ≤ d.line ∧ d.line ≤ 1 + source.count Byte.newline) ∧
      (∃ calls, Compiler.Course .ahead (Compiler.start unit (scan source)).advance calls .settled
        (Compiler.atEnd unit (scan source))) ∧
      ∀ calls, Compiler.Course .ahead (Compiler.start unit (scan source)).advance calls .settled
        (Compiler.atEnd unit (scan source)) → Compiler.Paced calls ds) ∧
    ∀ text, ∀ m ∈ Editor.marks text, ∃ line, (text.toList.splitOn '\n')[m.line]? = some line ∧
      m.stop = (String.ofList line).utf8ByteSize := by
  refine ⟨fun unit source ds rejected => ?_, fun text m member => Editor.marks_inside member⟩
  obtain ⟨sorted, inside⟩ := Compiler.rejected_lines rejected
  refine ⟨sorted, inside, Compiler.Goes.script unit (scan_spec source).1, fun calls course => ?_⟩
  have paced := course.paced (Compiler.credit_advance _)
  rwa [Compiler.rejected_atEnd rejected] at paced

/-- The byte on the third line is found while the compiler synchronizes, and the missing brace after that. -/
theorem diagnostics_in_order_nested :
    ∃ text ds, compile 0 text = .error ds ∧ ds.map Diagnostic.line = [1, 2, 3, 3] ∧
      (ds.map Diagnostic.line).Pairwise (· ≤ ·) ∧ (∃ calls, Compiler.Paced calls ds) ∧
      ∃ m ∈ Editor.marks text, m.line = 2 ∧ m.stop = 9 ∧
        ∃ line, (text.toList.splitOn '\n')[m.line]? = some line ∧ m.stop = (String.ofList line).utf8ByteSize := by
  obtain ⟨reports, marks⟩ := diagnostics_in_order
  have lines : (match compile 0 "print 1 +;\n\x7b var 2;\n@ print \x7d" with
      | .error ds => ds.map Diagnostic.line
      | .ok _ => []) = [1, 2, 3, 3] := by decide +kernel
  have marked : ⟨2, 9, "Unexpected character"⟩ ∈ Editor.marks "print 1 +;\n\x7b var 2;\n@ print \x7d" := by
    decide +kernel
  cases rejected : compile 0 "print 1 +;\n\x7b var 2;\n@ print \x7d" with
  | ok r =>
      rw [rejected] at lines
      cases lines
  | error ds =>
      rw [rejected] at lines
      obtain ⟨sorted, -, ⟨calls, course⟩, paced⟩ := reports 0 _ _ rejected
      exact ⟨_, ds, rejected, lines, sorted, ⟨calls, paced calls course⟩, _, marked, rfl, rfl,
        marks _ _ marked⟩

end Reckoner
