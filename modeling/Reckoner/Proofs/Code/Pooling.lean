import Mathlib.Data.List.Dedup
import Reckoner.Proofs.Decimal.Display
import Reckoner.Proofs.Script.Pool

/-!
Pools of constants, from the first constant on. A pool has one entry for each meaning that was offered to
it: equal constants share an entry, and an entry never moves.
-/

namespace Reckoner

/-- What a constant stands for in a pool. Numbers count by what they denote, however they are written,
and routines by their identity. -/
inductive Meaning where
  | number (sign : Int) (magnitude : ℚ)
  | text (value : String)
  | bool (value : Bool)
  | routine (identity : Identity)
  | foreign
  deriving DecidableEq

namespace Constant

def meaning : Constant → Meaning
  | .number d => .number d.sign d.magnitude
  | .text s => .text s
  | .bool b => .bool b
  | .routine r => .routine r.identity
  | .foreign => .foreign

/-- A constant that pools understand: a finite number, a text, a truth value or a routine. -/
def Understood : Constant → Prop
  | .number d => d.form = .finite
  | .foreign => False
  | _ => True

theorem same_iff {a b : Constant} (first : a.Understood) (second : b.Understood) :
    a.same b = true ↔ a.meaning = b.meaning := by
  cases a with
  | foreign => exact first.elim
  | number x =>
      cases b with
      | number y =>
          rw [same, Decimal.same, beq_iff_eq, Decimal.compare_eq_iff_parts first second]
          simp [meaning]
      | _ => simp [same, meaning]
  | _ => cases b <;> simp [same, meaning]

theorem meaning_number {a b : Decimal} (first : a.Regular) (second : b.Regular) :
    (number a).meaning = (number b).meaning ↔ a.value = b.value := by
  rw [first.value_eq_iff second]
  simp [meaning]

end Constant

namespace Routine

def addConstants (r : Routine) : List Constant → Routine × List Nat
  | [] => (r, [])
  | c :: rest =>
    let later := (r.addConstant c).1.addConstants rest
    (later.1, (r.addConstant c).2 :: later.2)

theorem addConstant_cases (r : Routine) (c : Constant) :
    (∃ i entry, r.constants[i]? = some entry ∧ entry.same c = true ∧ r.addConstant c = (r, i)) ∨
      (∀ old ∈ r.constants, old.same c = false) ∧
        r.addConstant c = ({ r with constants := r.constants.push c }, r.constants.size) := by
  rw [addConstant]
  split
  · rename_i i found
    obtain ⟨inside, equal, -⟩ := Array.findIdx?_eq_some_iff_getElem.mp found
    exact .inl ⟨i, r.constants[i], Array.getElem?_eq_getElem inside, equal, rfl⟩
  · rename_i missing
    refine .inr ⟨fun old member => ?_, rfl⟩
    simpa using Array.findIdx?_eq_none_iff.mp missing old member

end Routine

namespace Script.Pool

structure Distinct (offered : List Constant) (pool : Pool) : Prop where
  among : ∀ entry ∈ pool, entry ∈ offered
  meanings : (pool.toList.map Constant.meaning).Nodup

section

variable {offered : List Constant} (understood : ∀ c ∈ offered, c.Understood) {r : Routine}

include understood

theorem Distinct.add (distinct : Distinct offered r.constants) {c : Constant} (member : c ∈ offered) :
    let (after, i) := r.addConstant c
    Distinct offered after.constants ∧ Grows r.constants after.constants ∧
      (∃ entry, after.constants[i]? = some entry ∧ entry.meaning = c.meaning) ∧
      ∀ entry ∈ after.constants, entry ∈ r.constants ∨ entry = c := by
  have meant : ∀ old ∈ r.constants, old.same c = true ↔ old.meaning = c.meaning := fun old known =>
    Constant.same_iff (understood old (distinct.among old known)) (understood c member)
  obtain ⟨i, entry, there, equal, added⟩ | ⟨absent, added⟩ := r.addConstant_cases c
  · rw [added]
    exact ⟨distinct, .refl _, ⟨entry, there, (meant entry (Array.mem_of_getElem? there)).mp equal⟩,
      fun old known => .inl known⟩
  · rw [added]
    refine ⟨⟨?_, ?_⟩, .push _ c, ⟨c, Array.getElem?_push_size, rfl⟩, fun old => Array.mem_push.mp⟩
    · intro old known
      rcases Array.mem_push.mp known with before | rfl
      · exact distinct.among old before
      · exact member
    · rw [Array.toList_push, List.map_append, List.map_singleton, List.nodup_append]
      refine ⟨distinct.meanings, List.nodup_singleton _, ?_⟩
      intro x inside y new same
      obtain ⟨old, known, rfl⟩ := List.mem_map.mp inside
      rw [Array.mem_toList_iff] at known
      rw [List.mem_singleton.mp new, ← meant old known, absent old known] at same
      exact Bool.false_ne_true same

structure Takes (offered : List Constant) (pool : Pool) (cs : List Constant) (later : Pool)
    (indices : List Nat) : Prop where
  still : Distinct offered later
  grown : Grows pool later
  length : indices.length = cs.length
  stored : ∀ (k i : Nat) (c : Constant), cs[k]? = some c → indices[k]? = some i →
    ∃ entry, later[i]? = some entry ∧ entry.meaning = c.meaning
  origin : ∀ entry ∈ later, entry ∈ pool ∨ entry ∈ cs

theorem Distinct.addAll (distinct : Distinct offered r.constants) {cs : List Constant}
    (members : ∀ c ∈ cs, c ∈ offered) :
    Takes offered r.constants cs (r.addConstants cs).1.constants (r.addConstants cs).2 := by
  induction cs generalizing r with
  | nil => exact ⟨distinct, .refl _, rfl, nofun, fun entry known => .inl known⟩
  | cons c rest ih =>
      obtain ⟨still, grown, ⟨stored, there, same⟩, origin⟩ :=
        distinct.add understood (members c List.mem_cons_self)
      have others := ih still fun d member => members d (List.mem_cons_of_mem c member)
      refine ⟨others.still, grown.trans others.grown, congrArg (· + 1) others.length, ?_, ?_⟩
      · intro k i d given found
        cases k with
        | zero =>
            cases given
            cases found
            have inside := (Array.getElem?_eq_some_iff.mp there).1
            exact ⟨stored, (others.grown.getElem? inside).trans there, same⟩
        | succ k => exact others.stored k i d given found
      · intro entry known
        rcases others.origin entry known with before | new
        · exact (origin entry before).imp_right fun one => List.mem_cons.mpr (.inl one)
        · exact .inr (List.mem_cons_of_mem c new)

end

namespace Takes

variable {offered cs : List Constant} {pool later : Pool} {indices : List Nat}
  (takes : Takes offered pool cs later indices)

include takes

theorem shared {j k x y : Nat} {a b : Constant} (first : cs[j]? = some a) (second : cs[k]? = some b)
    (left : indices[j]? = some x) (right : indices[k]? = some y) : x = y ↔ a.meaning = b.meaning := by
  obtain ⟨one, there, same⟩ := takes.stored j x a first left
  obtain ⟨other, thereToo, sameToo⟩ := takes.stored k y b second right
  constructor
  · rintro rfl
    rw [← same, ← sameToo, Option.some.inj (there.symm.trans thereToo)]
  · intro equal
    have meant : ∀ {i : Nat} {entry : Constant}, later[i]? = some entry →
        (later.toList.map Constant.meaning)[i]? = some entry.meaning := by
      intro i entry found
      rw [List.getElem?_map, Array.getElem?_toList, found]
      rfl
    have inside := (List.getElem?_eq_some_iff.mp (meant there)).1
    refine (List.getElem?_inj inside takes.still.meanings).mp ?_
    rw [meant there, meant thereToo, same, sameToo, equal]

theorem size (empty : ∀ entry, entry ∉ pool) :
    later.size = (cs.map Constant.meaning).dedup.length := by
  have offered : ∀ meaning, meaning ∈ later.toList.map Constant.meaning ↔
      meaning ∈ (cs.map Constant.meaning).dedup := by
    intro meaning
    rw [List.mem_dedup, List.mem_map, List.mem_map]
    constructor
    · rintro ⟨entry, known, rfl⟩
      refine ⟨entry, ?_, rfl⟩
      exact (takes.origin entry (Array.mem_toList_iff.mp known)).resolve_left (empty entry)
    · rintro ⟨c, member, rfl⟩
      obtain ⟨k, inside, rfl⟩ := List.mem_iff_getElem.mp member
      have answered : k < indices.length := by rwa [takes.length]
      obtain ⟨entry, there, same⟩ := takes.stored k indices[k] cs[k]
        (List.getElem?_eq_getElem inside) (List.getElem?_eq_getElem answered)
      exact ⟨entry, Array.mem_toList_iff.mpr (Array.mem_of_getElem? there), same⟩
  rw [← Array.length_toList, ← List.length_map Constant.meaning]
  exact ((List.perm_ext_iff_of_nodup takes.still.meanings (List.nodup_dedup _)).mpr offered).length_eq

end Takes

end Script.Pool

namespace Routine

theorem addConstants_append (r : Routine) (a b : List Constant) :
    r.addConstants (a ++ b) =
      (((r.addConstants a).1.addConstants b).1,
        (r.addConstants a).2 ++ ((r.addConstants a).1.addConstants b).2) := by
  induction a generalizing r with
  | nil => rfl
  | cons c rest ih =>
      rw [List.cons_append, addConstants, ih]
      rfl

structure Pools (cs : List Constant) (pool : Array Constant) (indices : List Nat) : Prop where
  distinct : (pool.toList.map Constant.meaning).Nodup
  answered : indices.length = cs.length
  stored : ∀ (k i : Nat) (c : Constant), cs[k]? = some c → indices[k]? = some i →
    ∃ entry, pool[i]? = some entry ∧ entry.meaning = c.meaning ∧ entry.display = c.display
  shared : ∀ (j k x y : Nat) (a b : Constant), cs[j]? = some a → cs[k]? = some b →
    indices[j]? = some x → indices[k]? = some y → (x = y ↔ a.meaning = b.meaning)
  size : pool.size = (cs.map Constant.meaning).dedup.length

end Routine

theorem Constant.display_congr {a b : Constant} (first : a.Understood) (second : b.Understood)
    (told : ∀ q s, a = .routine q → b = .routine s → q.identity = s.identity → q = s)
    (same : a.meaning = b.meaning) : a.display = b.display := by
  cases a with
  | foreign => exact first.elim
  | number x =>
      cases b with
      | number y =>
          have parts : x.sign = y.sign ∧ x.magnitude = y.magnitude := by simpa [meaning] using same
          exact Decimal.display_of_parts first second parts.1 parts.2
      | _ => simp [meaning] at same
  | routine q =>
      cases b with
      | routine s =>
          have identity : q.identity = s.identity := by simpa [meaning] using same
          rw [told q s rfl rfl identity]
      | _ => simp [meaning] at same
  | text s | bool s =>
      cases b <;> simp [meaning] at same
      rw [same]

/-- Constants stored in an empty pool share an entry exactly if they have one meaning, and look like the
entry they share. There are as many entries as meanings, and an entry stays where it is. -/
theorem constants_pooled {r : Routine} (empty : r.constants = #[]) {cs : List Constant}
    (understood : ∀ c ∈ cs, c.Understood)
    (told : ∀ q s, .routine q ∈ cs → .routine s ∈ cs → q.identity = s.identity → q = s) :
    Routine.Pools cs (r.addConstants cs).1.constants (r.addConstants cs).2 ∧
    (∀ before after, cs = before ++ after →
      (r.addConstants before).2 <+: (r.addConstants cs).2 ∧
      ∀ (i : Nat) (entry : Constant), (r.addConstants before).1.constants[i]? = some entry →
        (r.addConstants cs).1.constants[i]? = some entry) ∧
    ∀ a b : Decimal, a.Regular → b.Regular →
      ((Constant.number a).meaning = (Constant.number b).meaning ↔ a.value = b.value) := by
  have start : Script.Pool.Distinct cs r.constants := by
    rw [empty]
    exact ⟨nofun, List.nodup_nil⟩
  have takes := start.addAll understood fun c member => member
  refine ⟨⟨takes.still.meanings, takes.length, ?_, ?_, ?_⟩, ?_, fun a b => Constant.meaning_number⟩
  · intro k i c given found
    obtain ⟨entry, there, same⟩ := takes.stored k i c given found
    have known := takes.still.among entry (Array.mem_of_getElem? there)
    have member := List.mem_of_getElem? given
    refine ⟨entry, there, same, Constant.display_congr (understood entry known) (understood c member) ?_ same⟩
    rintro q s rfl rfl identity
    exact told q s known member identity
  · intro j k x y a b first second left right
    exact takes.shared first second left right
  · exact takes.size (by rw [empty]; exact Array.not_mem_empty)
  · rintro before after rfl
    have grown := (start.addAll understood fun c member => List.mem_append_left after member).still.addAll
      understood fun c member => List.mem_append_right before member
    rw [Routine.addConstants_append]
    refine ⟨List.prefix_append .., fun i entry there => ?_⟩
    rw [grown.grown.getElem? (Array.getElem?_eq_some_iff.mp there).1, there]

/-- Three ways to write one number share an entry, which a text with the same characters does not. -/
theorem constants_pooled_twos :
    let f := Routine.empty ⟨0, 1⟩ "f"
    let cs : List Constant :=
      [.number { coefficient := 2 }, .text "2", .number { coefficient := 200, exponent := -2 },
        .routine f, .bool true, .number { coefficient := 20, exponent := -1 }, .routine f]
    let r := Routine.empty ⟨0, 0⟩ ""
    (r.addConstants cs).2 = [0, 1, 0, 2, 3, 0, 2] ∧
      Routine.Pools cs (r.addConstants cs).1.constants [0, 1, 0, 2, 3, 0, 2] := by
  intro f cs r
  have indices : (r.addConstants cs).2 = [0, 1, 0, 2, 3, 0, 2] := by decide +kernel
  have understood : ∀ c ∈ cs, c.Understood := by
    simp [cs, Constant.Understood]
  have pools := (constants_pooled (r := r) rfl understood (by simp [cs])).1
  rw [indices] at pools
  exact ⟨indices, pools⟩

end Reckoner
