import Reckoner.Proofs.Compiler.Stream
import Reckoner.Proofs.Script.Image

/-!
What the compiler writes, seen as slots on source lines instead of bytes. Each way of writing adds
items at the end; filling in a distance replaces one item and moves none.
-/

namespace Reckoner

open Script

/-- A slot and the source line of all its bytes. -/
structure Item where
  slot : Slot
  line : Nat

def bytesOfItems (items : List Item) : List UInt8 := items.flatMap fun i => i.slot.draft.bytes

def linesOfItems (items : List Item) : List Int :=
  items.flatMap fun i => List.replicate i.slot.size (i.line : Int)

def slotsOfItems (items : List Item) : List Slot := items.map Item.slot

@[simp] theorem slotsOfItems_append (a b : List Item) :
    slotsOfItems (a ++ b) = slotsOfItems a ++ slotsOfItems b := List.map_append

@[simp] theorem slotsOfItems_cons (i : Item) (a : List Item) :
    slotsOfItems (i :: a) = i.slot :: slotsOfItems a := rfl

theorem length_bytesOfItems (items : List Item) :
    (bytesOfItems items).length = slotsSize (slotsOfItems items) := by
  induction items with
  | nil => rfl
  | cons i rest ih =>
      rw [bytesOfItems, List.flatMap_cons, List.length_append, slotsOfItems_cons, slotsSize]
      rw [bytesOfItems] at ih
      rw [ih, Directive.length_bytes]
      rfl

def Routine.header (r : Routine) : Identity × String × Int := (r.identity, r.name, r.arity)

namespace Compiler

def pool (s : Compiler) : Pool := s.draft.routine.constants

def withPool (s : Compiler) (pool : Pool) : Compiler :=
  { s with draft := { s.draft with routine := { s.draft.routine with constants := pool } } }

def withCode (s : Compiler) (code : Array UInt8) : Compiler :=
  { s with draft := { s.draft with routine := { s.draft.routine with code } } }

/-- From `s` to `t` the items have been written, and nothing else of the draft's surroundings has
changed. -/
structure Emits (s t : Compiler) (items : List Item) : Prop where
  code : t.draft.routine.code.toList = s.draft.routine.code.toList ++ bytesOfItems items
  lines : t.draft.routine.lines.toList = s.draft.routine.lines.toList ++ linesOfItems items
  ordered : (s.previous.line :: (items.map Item.line ++ [t.previous.line])).Pairwise (· ≤ ·)
  positive : ∀ line ∈ items.map Item.line, 1 ≤ line
  header : t.draft.routine.header = s.draft.routine.header
  grown : s.pool.Grows t.pool
  unit : t.unit = s.unit
  enclosing : t.enclosing = s.enclosing

namespace Emits

theorem previous_le {s t : Compiler} {items : List Item} (e : Emits s t items) :
    s.previous.line ≤ t.previous.line :=
  (List.pairwise_cons.mp e.ordered).1 _ (by simp)

theorem here_eq {s t : Compiler} {items : List Item} (e : Emits s t items) :
    t.here = s.here + slotsSize (slotsOfItems items) := by
  have size := congrArg List.length e.code
  rw [List.length_append, length_bytesOfItems] at size
  exact size

theorem trans {s t u : Compiler} {a b : List Item} (first : Emits s t a) (second : Emits t u b) :
    Emits s u (a ++ b) where
  code := by rw [second.code, first.code, bytesOfItems, bytesOfItems, bytesOfItems,
    List.flatMap_append, List.append_assoc]
  lines := by rw [second.lines, first.lines, linesOfItems, linesOfItems, linesOfItems,
    List.flatMap_append, List.append_assoc]
  ordered := by
    have left := first.ordered
    have right := second.ordered
    rw [List.map_append, List.append_assoc]
    rw [← List.cons_append, List.pairwise_append] at left ⊢
    refine ⟨left.1, (List.pairwise_cons.mp right).2, ?_⟩
    intro x member y later
    have upTo : x ≤ t.previous.line := left.2.2 x member _ (by simp)
    exact Nat.le_trans upTo ((List.pairwise_cons.mp right).1 y later)
  positive := by
    intro line member
    rw [List.map_append] at member
    rcases List.mem_append.mp member with old | new
    · exact first.positive line old
    · exact second.positive line new
  header := second.header.trans first.header
  grown := first.grown.trans second.grown
  unit := second.unit.trans first.unit
  enclosing := second.enclosing.trans first.enclosing

theorem quiet {s t : Compiler} (draft : t.draft = s.draft)
    (later : s.previous.line ≤ t.previous.line) (unit : t.unit = s.unit)
    (enclosing : t.enclosing = s.enclosing) : Emits s t [] where
  code := by rw [draft]; simp [bytesOfItems]
  lines := by rw [draft]; simp [linesOfItems]
  ordered := by simpa using later
  positive := by simp
  header := by rw [draft]
  grown := by rw [pool, pool, draft]; exact .refl _
  unit := unit
  enclosing := enclosing

theorem refl (s : Compiler) : Emits s s [] := quiet rfl (Nat.le_refl _) rfl rfl

end Emits

def written (s : Compiler) (bytes : List UInt8) : Compiler :=
  bytes.foldl emit s

theorem written_routine (s : Compiler) (bytes : List UInt8) :
    (s.written bytes).draft.routine.code.toList = s.draft.routine.code.toList ++ bytes ∧
      (s.written bytes).draft.routine.lines.toList =
        s.draft.routine.lines.toList ++ List.replicate bytes.length (s.previous.line : Int) := by
  induction bytes generalizing s with
  | nil => simp [written]
  | cons b rest ih =>
      obtain ⟨code, lines⟩ := ih (s.emit b)
      have opened : s.written (b :: rest) = (s.emit b).written rest := rfl
      rw [opened, code, lines]
      simp [emit, Routine.write, List.replicate_succ]

theorem written_eq (s : Compiler) (bytes : List UInt8) :
    ∃ draft, s.written bytes = { s with draft } ∧ draft.locals = s.draft.locals ∧
      draft.depth = s.draft.depth ∧ draft.loops = s.draft.loops ∧
      draft.routine.header = s.draft.routine.header ∧
      draft.routine.constants = s.draft.routine.constants := by
  induction bytes generalizing s with
  | nil => exact ⟨s.draft, rfl, rfl, rfl, rfl, rfl, rfl⟩
  | cons b rest ih =>
      obtain ⟨draft, whole, locals, depth, loops, header, constants⟩ := ih (s.emit b)
      exact ⟨draft, whole, locals, depth, loops, header, constants⟩

theorem emits_written {s : Compiler} (positive : 1 ≤ s.previous.line) (d : Directive) :
    Emits s (s.written d.bytes) [⟨.fixed d, s.previous.line⟩] := by
  obtain ⟨code, lines⟩ := written_routine s d.bytes
  obtain ⟨draft, whole, _, _, _, header, constants⟩ := written_eq s d.bytes
  rw [Directive.length_bytes] at lines
  rw [whole] at code lines ⊢
  exact {
    code := by simpa [bytesOfItems, Slot.draft] using code
    lines := by simpa [linesOfItems, Slot.size, Slot.draft] using lines
    ordered := by simp
    positive := by simpa using positive
    header := header
    grown := by rw [pool, pool, constants]; exact .refl _
    unit := rfl
    enclosing := rfl }

theorem emitOp_eq (s : Compiler) {op : Operation} (plain : op.operand = .none) :
    s.emitOp op = s.written (Directive.bytes ⟨op, 0⟩) := by
  rw [Directive.bytes, plain]
  rfl

theorem emitWith_eq (s : Compiler) {op : Operation} (narrow : op.operand.width = 1)
    (operand : Nat) : s.emitWith op operand.toUInt8 = s.written (Directive.bytes ⟨op, operand⟩) := by
  rw [Directive.bytes, narrow]
  rfl

theorem operandBytes_unset : Directive.operandBytes Slot.unset 2 = [0xff, 0xff] := by decide

theorem emitJump_eq (s : Compiler) {op : Operation} (wide : op.operand.width = 2) :
    s.emitJump op = s.written (Directive.bytes ⟨op, Slot.unset⟩) := by
  rw [Directive.bytes, wide, operandBytes_unset]
  rfl

theorem emitLoop_eq {s : Compiler} (audible : s.silent = false) {start : Nat}
    (before : start ≤ s.here) (done : (s.emitLoop start).diagnostics = #[]) :
    s.emitLoop start = s.written (loopBack s.here start).bytes ∧
      (loopBack s.here start).operand < 65536 := by
  have distance : (s.emitOp .loop).here - start + 2 = s.here + 3 - start := by
    have next : (s.emitOp .loop).here = s.here + 1 := Array.size_push _
    rw [next]
    omega
  simp only [emitLoop, distance] at done ⊢
  split at done
  · rename_i long
    refine absurd done ?_
    exact fault_diagnostics_ne (s := s.emitOp .loop) audible .loopTooLarge
  · rename_i short
    rw [if_neg short]
    refine ⟨rfl, ?_⟩
    simp only [maxJump] at short
    simp only [loopBack]
    omega

theorem constant_eq {s : Compiler} (audible : s.silent = false) {c : Constant}
    (known : c ≠ .foreign) (done : (s.constant c).1.diagnostics = #[]) :
    ∃ pool : Pool, s.constant c = (s.withPool pool, (pool.find c).toUInt8) ∧
      pool.find c < pool.size ∧ pool.find c < 256 ∧ (pool = s.pool ∨ pool = s.pool.push c) := by
  obtain ⟨pool, stored, bound, source⟩ := s.draft.routine.addConstant_spec known
  refine ⟨pool, ?_⟩
  simp only [constant, stored] at done ⊢
  split at done
  · exact absurd done (fault_diagnostics_ne (s := s.withPool pool) audible _)
  · rename_i inRange
    rw [if_neg inRange]
    simp only [maxConstants] at inRange
    exact ⟨rfl, bound, by omega, source⟩

theorem emits_withPool (s : Compiler) {pool : Pool} (grown : s.pool.Grows pool) :
    Emits s (s.withPool pool) [] where
  code := by simp [withPool, bytesOfItems]
  lines := by simp [withPool, linesOfItems]
  ordered := by simp [withPool]
  positive := by simp
  header := rfl
  grown := grown
  unit := rfl
  enclosing := rfl

end Compiler

theorem set_operand (before after : List UInt8) (op high low x y : UInt8) :
    ((before ++ op :: x :: y :: after).set (before.length + 1) high).set (before.length + 2) low
      = before ++ op :: high :: low :: after := by
  rw [List.set_append_right _ _ (by omega), List.set_append_right _ _ (by omega)]
  have first : before.length + 1 - before.length = 1 := by omega
  have second : before.length + 2 - before.length = 2 := by omega
  rw [first, second]
  rfl

namespace Compiler

theorem patchJump_eq {s : Compiler} (audible : s.silent = false) {position : Nat}
    (done : (s.patchJump position).diagnostics = #[]) :
    s.here - position - 2 < 65536 ∧
      s.patchJump position = s.withCode ((s.draft.routine.code.setIfInBounds position
        ((s.here - position - 2) / 256).toUInt8).setIfInBounds (position + 1)
          (s.here - position - 2).toUInt8) := by
  simp only [patchJump] at done ⊢
  split at done
  · exact absurd done (fault_diagnostics_ne audible _)
  · rename_i short
    simp only [maxJump] at short
    exact ⟨by omega, by rw [if_neg (by simp only [maxJump]; omega)]; rfl⟩

/-- Filling in the distance of a jump settles its item, and the distance is what was written after
it. -/
theorem Emits.patch {s t : Compiler} {a b : List Item} {old : Slot} {op : Operation} {line : Nat}
    (e : Emits s t (a ++ ⟨old, line⟩ :: b)) (audible : t.silent = false)
    (pending : old.draft = ⟨op, Slot.unset⟩) (wide : op.operand.width = 2) {position : Nat}
    (place : position = s.here + slotsSize (slotsOfItems a) + 1)
    (done : (t.patchJump position).diagnostics = #[]) :
    Emits s (t.patchJump position)
        (a ++ ⟨.fixed ⟨op, slotsSize (slotsOfItems b)⟩, line⟩ :: b) ∧
      slotsSize (slotsOfItems b) < 65536 := by
  obtain ⟨short, patched⟩ := patchJump_eq audible done
  have sizes : old.size = 3 := by rw [Slot.size, pending, Directive.size, wide]
  have distance : t.here - position - 2 = slotsSize (slotsOfItems b) := by
    rw [e.here_eq, slotsOfItems_append, slotsSize_append, slotsOfItems_cons, slotsSize, sizes]
    omega
  rw [distance] at short patched
  have unsetBytes : old.draft.bytes = [op.byte, 0xff, 0xff] := by
    rw [pending, Directive.bytes, wide, operandBytes_unset]
  have setBytes : (Directive.bytes ⟨op, slotsSize (slotsOfItems b)⟩) = [op.byte,
      (slotsSize (slotsOfItems b) / 256).toUInt8, (slotsSize (slotsOfItems b)).toUInt8] := by
    rw [Directive.bytes, wide]
    rfl
  refine ⟨?_, short⟩
  rw [patched]
  exact {
    code := by
      have whole : t.draft.routine.code.toList =
          (s.draft.routine.code.toList ++ bytesOfItems a) ++ op.byte :: 0xff :: 0xff ::
            bytesOfItems b := by
        rw [e.code]
        simp [bytesOfItems, unsetBytes]
      have start : position = (s.draft.routine.code.toList ++ bytesOfItems a).length + 1 := by
        rw [place, List.length_append, length_bytesOfItems]
        rfl
      simp only [withCode, Array.toList_setIfInBounds]
      rw [whole, start, set_operand]
      simp [bytesOfItems, Slot.draft, setBytes]
    lines := by
      have lines := e.lines
      simp only [linesOfItems, List.flatMap_append, List.flatMap_cons, sizes] at lines
      simp only [withCode, lines, linesOfItems, List.flatMap_append, List.flatMap_cons, Slot.size,
        Slot.draft, Directive.size, wide]
    ordered := by simpa [withCode] using e.ordered
    positive := by simpa using e.positive
    header := e.header
    grown := e.grown
    unit := e.unit
    enclosing := e.enclosing }

end Compiler

end Reckoner
