import Reckoner.Proofs.Script.Assembly

/-!
Constant pools while they grow. An index handed out once keeps its meaning, and it is the index the
constant has in the finished pool.
-/

namespace Reckoner

theorem Decimal.compareMagnitude_self (d : Decimal) : d.compareMagnitude d = .eq := by
  rw [Decimal.compareMagnitude, if_pos rfl]
  exact Std.ReflCmp.compare_self

theorem Decimal.same_self (d : Decimal) : d.same d = true := by
  have signs : Ord.compare d.sign d.sign = .eq := Std.ReflCmp.compare_self
  rw [Decimal.same, Decimal.compare, signs]
  simp only [Decimal.compareMagnitude_self]
  cases d.form == .infinite <;> simp only [] <;> split <;> first | rfl | (split <;> rfl)

theorem Constant.same_self {c : Constant} (known : c ≠ .foreign) : c.same c = true := by
  cases c with
  | number d => exact d.same_self
  | text s => exact beq_self_eq_true s
  | bool b => exact beq_self_eq_true b
  | routine r => exact beq_self_eq_true r.identity
  | foreign => exact absurd rfl known

namespace Script.Pool

def Grows (old new : Pool) : Prop := ∃ more : Pool, new = old ++ more

namespace Grows

variable {a b c : Pool}

theorem refl (a : Pool) : Grows a a := ⟨#[], (Array.append_empty).symm⟩

theorem trans (first : Grows a b) (second : Grows b c) : Grows a c := by
  obtain ⟨more, rfl⟩ := first
  obtain ⟨rest, rfl⟩ := second
  exact ⟨more ++ rest, Array.append_assoc⟩

theorem push (a : Pool) (entry : Constant) : Grows a (a.push entry) :=
  ⟨#[entry], Array.push_eq_append⟩

theorem size_le (grown : Grows a b) : a.size ≤ b.size := by
  obtain ⟨more, rfl⟩ := grown
  rw [Array.size_append]
  omega

theorem getElem? (grown : Grows a b) {i : Nat} (bound : i < a.size) : b[i]? = a[i]? := by
  obtain ⟨more, rfl⟩ := grown
  exact Array.getElem?_append_left bound

theorem findIdx_eq (grown : Grows a b) {p : Constant → Bool} (found : a.findIdx p < a.size) :
    b.findIdx p = a.findIdx p := by
  obtain ⟨more, rfl⟩ := grown
  rw [Array.findIdx_append, if_pos found]

theorem find_eq (grown : Grows a b) {entry : Constant} (found : a.find entry < a.size) :
    b.find entry = a.find entry := grown.findIdx_eq found

theorem findRoutine_eq (grown : Grows a b) {id : Identity} (found : a.findRoutine id < a.size) :
    b.findRoutine id = a.findRoutine id := grown.findIdx_eq found

end Grows

theorem findIdx_entry {pool : Pool} {p : Constant → Bool} (found : pool.findIdx p < pool.size) :
    ∃ entry, pool[pool.findIdx p]? = some entry ∧ p entry = true :=
  ⟨pool[pool.findIdx p], Array.getElem?_eq_getElem found, Array.findIdx_getElem⟩

theorem find_number {pool : Pool} {d : Decimal} (found : pool.find (.number d) < pool.size) :
    ∃ e, pool[pool.find (.number d)]? = some (.number e) ∧ e.same d = true := by
  obtain ⟨entry, stored, same⟩ := findIdx_entry found
  cases entry with
  | number e => exact ⟨e, stored, same⟩
  | _ => exact absurd same Bool.false_ne_true

theorem find_text {pool : Pool} {name : String} (found : pool.find (.text name) < pool.size) :
    pool[pool.find (.text name)]? = some (.text name) := by
  obtain ⟨entry, stored, same⟩ := findIdx_entry found
  cases entry with
  | text other =>
      have equal : other = name := eq_of_beq same
      rw [← equal] at stored ⊢
      exact stored
  | _ => exact absurd same Bool.false_ne_true

theorem findRoutine_entry {pool : Pool} {id : Identity}
    (found : pool.findRoutine id < pool.size) :
    ∃ r, pool[pool.findRoutine id]? = some (.routine r) ∧ r.identity = id := by
  obtain ⟨entry, stored, same⟩ := findIdx_entry found
  cases entry with
  | routine r => exact ⟨r, stored, eq_of_beq same⟩
  | _ => exact absurd same Bool.false_ne_true

theorem find_routine (pool : Pool) (r : Routine) :
    pool.find (.routine r) = pool.findRoutine r.identity := by
  rw [find, findRoutine]
  congr 1
  funext entry
  cases entry <;> rfl

end Script.Pool

open Script

theorem Routine.addConstant_spec (r : Routine) {c : Constant} (known : c ≠ .foreign) :
    ∃ pool : Pool, r.addConstant c = ({ r with constants := pool }, pool.find c) ∧
      pool.find c < pool.size ∧ (pool = r.constants ∨ pool = r.constants.push c) := by
  unfold addConstant
  split
  · rename_i i found
    obtain ⟨bound, position⟩ := Array.findIdx?_eq_some_iff_findIdx_eq.mp found
    have same : Pool.find r.constants c = i := position
    refine ⟨r.constants, ?_, by rw [same]; exact bound, .inl rfl⟩
    rw [same]
    cases r
    rfl
  · rename_i missing
    have absent : ∀ old ∈ r.constants, old.same c = false := by
      intro old member
      simpa using Array.findIdx?_eq_none_iff.mp missing old member
    have position : Pool.find (r.constants.push c) c = r.constants.size := by
      have unfound : ¬ r.constants.findIdx (fun old => old.same c) < r.constants.size := by
        rw [Array.findIdx_eq_size_of_false absent]
        omega
      rw [Pool.find, Array.findIdx_push, if_neg unfound, Constant.same_self known]
      rfl
    refine ⟨r.constants.push c, by rw [position], ?_, .inr rfl⟩
    rw [position, Array.size_push]
    omega

end Reckoner
