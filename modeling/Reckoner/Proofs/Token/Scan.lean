import Reckoner.Proofs.Compiler.Stream
import Reckoner.Proofs.Token.Spans

/-!
What the scanner promises the compiler: the end token comes last and only there, and lines never
go back.
-/

namespace Reckoner

namespace Cursor

theorem skip_spec (comment : Bool) (rest : List UInt8) (offset line : Nat) :
    (skip comment rest offset line).rest.length ≤ rest.length ∧
      line ≤ (skip comment rest offset line).line := by
  fun_induction skip comment rest offset line with
  | case1 => simp
  | case2 _ _ _ _ _ ih => exact ⟨Nat.le_succ_of_le ih.1, Nat.le_of_succ_le ih.2⟩
  | case3 _ _ _ _ _ ih => exact ⟨Nat.le_succ_of_le ih.1, ih.2⟩
  | case4 _ _ _ _ _ ih => exact ⟨Nat.le_succ_of_le ih.1, Nat.le_of_succ_le ih.2⟩
  | case5 _ _ _ _ _ _ ih => exact ⟨Nat.le_succ_of_le ih.1, ih.2⟩
  | case6 _ _ _ _ _ _ _ ih => exact ⟨Nat.le_succ_of_le ih.1, ih.2⟩
  | case7 => simp

theorem next_spec (c : Cursor) :
    c.line ≤ c.next.1.line ∧ c.next.2.line = c.next.1.line ∧
      (c.next.1.kind ≠ .eof → c.next.2.rest.length < c.rest.length) := by
  obtain ⟨shorter, later⟩ := skip_spec false c.rest c.offset c.line
  simp only [next]
  split
  · exact ⟨later, rfl, fun more => absurd rfl more⟩
  · rename_i b rest rests
    refine ⟨later, rfl, fun _ => ?_⟩
    have positive := (classify_spec b rest).2
    rw [rests] at shorter
    simp only [rests, List.length_drop, List.length_cons] at shorter ⊢
    omega

theorem collect_spec {fuel : Nat} {c : Cursor} (found : Array Token)
    (enough : c.rest.length < fuel) :
    ∃ ts, (c.collect fuel found).1.toList = found.toList ++ ts ∧ Compiler.Closed ts ∧
      (c.line :: ts.map Token.line).Pairwise (· ≤ ·) := by
  induction fuel generalizing c found with
  | zero => omega
  | succ fuel ih =>
      obtain ⟨later, same, shorter⟩ := c.next_spec
      rw [collect]
      simp only []
      split
      · rename_i ended
        refine ⟨[c.next.1], by simp, ended, ?_⟩
        simpa using later
      · rename_i more
        have fewer := shorter more
        obtain ⟨ts, collected, closed, ordered⟩ := ih (found.push c.next.1) (c := c.next.2) (by omega)
        refine ⟨c.next.1 :: ts, by rw [collected]; simp, closed.cons more, ?_⟩
        rw [same] at ordered
        rw [List.map_cons]
        refine List.pairwise_cons.mpr ⟨?_, ordered⟩
        intro line member
        rcases List.mem_cons.mp member with this | rest
        · rw [this]
          exact later
        · exact Nat.le_trans later ((List.pairwise_cons.mp ordered).1 line rest)

end Cursor

theorem scan_spec (bytes : List UInt8) :
    Compiler.Closed (scan bytes) ∧ (1 :: (scan bytes).map Token.line).Pairwise (· ≤ ·) := by
  obtain ⟨ts, collected, closed, ordered⟩ :=
    Cursor.collect_spec (c := .ofBytes bytes) #[] (Nat.lt_succ_self _)
  have same : scan bytes = ts := collected
  rw [same]
  exact ⟨closed, ordered⟩

end Reckoner
