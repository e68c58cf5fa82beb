import Reckoner.Proofs.Compiler.Expression

/-!
Jumps out of loops. Each `break` is noted with its loop and filled in when the loop is complete;
the notes are the places of the open slots in the code written since.
-/

namespace Reckoner.Script

/-- Where the distances of the open jumps stand in code that starts at an offset. -/
def exitsFrom : (p : Nat) → List Slot → List Nat
  | _, [] => []
  | p, .fixed d :: rest => exitsFrom (p + d.size) rest
  | p, .exit :: rest => (p + 1) :: exitsFrom (p + 3) rest

theorem Slot.exit_size : Slot.exit.size = 3 := rfl

theorem exitsFrom_append (p : Nat) (a b : List Slot) :
    exitsFrom p (a ++ b) = exitsFrom p a ++ exitsFrom (p + slotsSize a) b := by
  induction a generalizing p with
  | nil => rfl
  | cons slot rest ih =>
      cases slot with
      | fixed d =>
          rw [List.cons_append, exitsFrom, exitsFrom, slotsSize, ih, Slot.size, Slot.draft,
            Nat.add_assoc]
      | exit =>
          rw [List.cons_append, exitsFrom, exitsFrom, slotsSize, ih, Slot.exit_size,
            List.cons_append, Nat.add_assoc]

@[simp] theorem exitsFrom_fixedSlots (p : Nat) (code : List Directive) :
    exitsFrom p (fixedSlots code) = [] := by
  induction code generalizing p with
  | nil => rfl
  | cons d rest ih => exact ih (p + d.size)

end Reckoner.Script

namespace Reckoner.Compiler

open Script

theorem reports_patches (breaks : List Nat) (s : Compiler) :
    Reports s (breaks.foldl patchJump s) := by
  induction breaks generalizing s with
  | nil => exact .refl s
  | cons position rest ih => exact (reports_patchJump s position).trans (ih _)

structure Patched (s t : Compiler) : Prop extends Kept s t, SameInput s t where
  audible : t.silent = false
  pool : t.pool = s.pool

theorem Patched.of_patch {s : Compiler} (audible : s.silent = false) {position : Nat}
    (done : (s.patchJump position).diagnostics = #[]) : Patched s (s.patchJump position) := by
  obtain ⟨-, equal⟩ := patchJump_eq audible done
  rw [equal]
  exact { toKept := .withCode s _, toSameInput := ⟨rfl, rfl, rfl⟩, audible := audible, pool := rfl }

theorem Patched.trans {s t u : Compiler} (first : Patched s t) (second : Patched t u) :
    Patched s u where
  toKept := first.toKept.trans second.toKept
  stream := second.stream.trans first.stream
  tokens := second.tokens.trans first.tokens
  previous := second.previous.trans first.previous
  audible := second.audible
  pool := second.pool.trans first.pool

/-- Filling in the noted jumps one after the other settles all open slots of the last items. -/
theorem Emits.resolve {s t : Compiler} {a b : List Item} (e : Emits s t (a ++ b))
    (audible : t.silent = false) {breaks : List Nat} {p : Nat}
    (start : p = s.here + slotsSize (slotsOfItems a))
    (noted : breaks = exitsFrom p (slotsOfItems b))
    (done : (breaks.foldl patchJump t).diagnostics = #[]) :
    ∃ c, Emits s (breaks.foldl patchJump t) (a ++ c) ∧ Patched t (breaks.foldl patchJump t) ∧
      slotsOfItems c = fixedSlots (resolveFrom t.here p (slotsOfItems b)) ∧
      ∀ pool, (∀ slot ∈ slotsOfItems b, slot.Fits pool) →
        ∀ slot ∈ slotsOfItems c, slot.Fits pool := by
  induction b generalizing t a breaks p with
  | nil =>
      subst noted
      exact ⟨[], e, { toKept := .refl t, toSameInput := ⟨rfl, rfl, rfl⟩, audible, pool := rfl },
        rfl, fun _ fits => fits⟩
  | cons item rest ih =>
      obtain ⟨slot, line⟩ := item
      have moved (slot : Slot) : p + slot.size =
          s.here + slotsSize (slotsOfItems (a ++ [⟨slot, line⟩])) := by
        rw [slotsOfItems_append, slotsSize_append, start, Nat.add_assoc]
        rfl
      cases slot with
      | fixed d =>
          rw [List.append_cons] at e
          obtain ⟨c, emitted, patched, slots, fits⟩ := ih e audible (moved (.fixed d)) noted done
          refine ⟨⟨.fixed d, line⟩ :: c, by rw [List.append_cons]; exact emitted, patched, ?_, ?_⟩
          · rw [slotsOfItems_cons, slots]
            rfl
          · intro pool fitting slot member
            rcases List.mem_cons.mp member with this | later
            · rw [this]
              exact fitting _ List.mem_cons_self
            · exact fits pool (fun slot inRest => fitting slot (List.mem_cons_of_mem _ inRest))
                slot later
      | exit =>
          have first : breaks = (p + 1) :: exitsFrom (p + 3) (slotsOfItems rest) := noted
          subst first
          have clean : (t.patchJump (p + 1)).diagnostics = #[] := (reports_patches _ _).clean done
          have whole := e.here_eq
          rw [slotsOfItems_append, slotsSize_append, slotsOfItems_cons, slotsSize,
            Slot.exit_size] at whole
          obtain ⟨emittedFirst, short⟩ := e.patch audible rfl rfl (by rw [start]) clean
          have patchedFirst := Patched.of_patch audible clean
          have hereEq : (t.patchJump (p + 1)).here = t.here := by
            rw [emittedFirst.here_eq, slotsOfItems_append, slotsSize_append, whole]
            rfl
          rw [List.append_cons] at emittedFirst
          obtain ⟨c, emitted, patched, slots, fits⟩ := ih emittedFirst patchedFirst.audible
            (moved (.fixed ⟨.jump, slotsSize (slotsOfItems rest)⟩)) rfl done
          have distance : t.here - (p + 3) = slotsSize (slotsOfItems rest) := by
            rw [whole, start]
            omega
          refine ⟨⟨.fixed ⟨.jump, slotsSize (slotsOfItems rest)⟩, line⟩ :: c,
            by rw [List.append_cons]; exact emitted, patchedFirst.trans patched, ?_, ?_⟩
          · rw [slotsOfItems_cons, slots, hereEq, ← distance]
            rfl
          · intro pool fitting slot member
            rcases List.mem_cons.mp member with this | later
            · rw [this]
              exact ⟨short, fun constant => absurd constant (show Operand.jump ≠ .constant by decide)⟩
            · exact fits pool (fun slot inRest => fitting slot (List.mem_cons_of_mem _ inRest))
                slot later

theorem Progress.resolve {s t : Compiler} {code : Pool → List Slot} (p : Progress s t code)
    {breaks : List Nat} (noted : breaks = exitsFrom s.here (code t.pool))
    (done : (breaks.foldl patchJump t).diagnostics = #[]) :
    Progress s (breaks.foldl patchJump t)
        (fun pool => fixedSlots (resolveFrom t.here s.here (code pool))) ∧
      Patched t (breaks.foldl patchJump t) := by
  obtain ⟨items, emitted, settled⟩ := p.writes
  have slots := (settled t.pool (.refl _)).1
  rw [← slots] at noted
  obtain ⟨c, emittedC, patched, slotsC, fits⟩ :=
    Emits.resolve (a := []) emitted p.audible rfl noted done
  refine ⟨⟨⟨done, patched.audible, ?_, ?_, ?_⟩, ?_, c, emittedC, ?_⟩, patched⟩
  · rw [patched.stream]
    exact p.ready.closed
  · rw [patched.stream, patched.previous]
    exact p.ready.ordered
  · rw [patched.stream]
    exact p.ready.positive
  · rw [patched.previous]
    exact p.positive
  · intro pool grown
    rw [patched.pool] at grown
    obtain ⟨same, fitting⟩ := settled pool grown
    have slotsPool : slotsOfItems c = fixedSlots (resolveFrom t.here s.here (code pool)) := by
      rw [slotsC, same]
      rfl
    refine ⟨slotsPool, ?_⟩
    dsimp only
    rw [← slotsPool]
    rw [← same] at fitting
    exact fits pool fitting

end Reckoner.Compiler
