import Reckoner.Proofs.Compiler.Breaks

/-!
Scopes, loops and nested routines. A statement leaves the locals as it found them, adds its breaks
to the loop around it, and stores the routines of the functions declared in it.
-/

namespace Reckoner.Compiler

open Script

/-- What holds between any two statements. -/
structure Scoped (s : Compiler) : Prop where
  nonempty : s.draft.locals ≠ []
  bounded : ∀ l ∈ s.draft.locals, ∃ d, l.depth = some d ∧ d ≤ s.draft.depth
  room : s.draft.locals.length ≤ maxLocals
  numbered : ∀ r, .routine r ∈ s.pool → r.identity.index < s.created
  behind : ∀ loop ∈ s.draft.loops, loop.start ≤ s.here
  inside : ∀ loop ∈ s.draft.loops, loop.depth ≤ s.draft.depth

def Deep (s : Compiler) : Prop := ∀ loop ∈ s.draft.loops, loop.depth < s.draft.depth

def site (s : Compiler) : Option LoopSite :=
  s.draft.loops.head?.map fun loop =>
    ⟨loop.start, (s.draft.locals.dropLast.dropWhile (Local.isDeeper loop.depth)).length⟩

def addBreaks (loops : List Loop) (more : List Nat) : List Loop :=
  match loops with
  | [] => []
  | loop :: rest => { loop with breaks := loop.breaks ++ more } :: rest

@[simp] theorem addBreaks_nil (loops : List Loop) : addBreaks loops [] = loops := by
  cases loops with
  | nil => rfl
  | cons loop rest => rw [addBreaks, List.append_nil]

theorem addBreaks_append (loops : List Loop) (a b : List Nat) :
    addBreaks loops (a ++ b) = addBreaks (addBreaks loops a) b := by
  cases loops with
  | nil => rfl
  | cons loop rest => simp only [addBreaks, List.append_assoc]

theorem mem_addBreaks {loops : List Loop} {more : List Nat} {loop : Loop}
    (member : loop ∈ addBreaks loops more) :
    ∃ old ∈ loops, old.start = loop.start ∧ old.depth = loop.depth := by
  cases loops with
  | nil => exact absurd member List.not_mem_nil
  | cons first rest =>
      rcases List.mem_cons.mp member with this | later
      · rw [this]
        exact ⟨first, List.mem_cons_self, rfl, rfl⟩
      · exact ⟨loop, List.mem_cons_of_mem _ later, rfl, rfl⟩

/-- From `s` to `t` code was written in which the given functions are declared. -/
structure Pass (s t : Compiler) (code : Pool → List Slot) (fs : List Function) : Prop
    extends Progress s t code where
  created : s.created ≤ t.created
  still : fs = [] → t.created = s.created
  routines : ∀ r, .routine r ∈ t.pool → .routine r ∈ s.pool ∨
    (∃ g ∈ fs, Implements s.unit false r g) ∧ r.identity.index < t.created
  linked : ∀ pool, t.pool.Grows pool → ∀ g ∈ fs, Linked s.unit pool g
  fewer : t.tokens.length ≤ s.tokens.length

namespace Pass

variable {s t u : Compiler} {code more : Pool → List Slot} {fs gs : List Function}

theorem unit_eq (pass : Pass s t code fs) : t.unit = s.unit := by
  obtain ⟨items, emitted, -⟩ := pass.writes
  exact emitted.unit

theorem enclosing_eq (pass : Pass s t code fs) : t.enclosing = s.enclosing := by
  obtain ⟨items, emitted, -⟩ := pass.writes
  exact emitted.enclosing

theorem here_le (pass : Pass s t code fs) : s.here ≤ t.here := by
  rw [pass.writes.here_eq (.refl _)]
  omega

theorem trans (first : Pass s t code fs) (second : Pass t u more gs) :
    Pass s u (fun pool => code pool ++ more pool) (fs ++ gs) where
  toProgress := first.toProgress.trans second.toProgress
  created := Nat.le_trans first.created second.created
  still := by
    intro none
    obtain ⟨noneFirst, noneSecond⟩ := List.append_eq_nil_iff.mp none
    exact (second.still noneSecond).trans (first.still noneFirst)
  routines := by
    intro r member
    rcases second.routines r member with old | ⟨⟨g, declared, implements⟩, bound⟩
    · rcases first.routines r old with older | ⟨⟨g, declared, implements⟩, bound⟩
      · exact .inl older
      · exact .inr ⟨⟨g, List.mem_append_left _ declared, implements⟩,
          Nat.lt_of_lt_of_le bound second.created⟩
    · rw [first.unit_eq] at implements
      exact .inr ⟨⟨g, List.mem_append_right _ declared, implements⟩, bound⟩
  linked := by
    intro pool grown g declared
    rcases List.mem_append.mp declared with old | new
    · exact first.linked pool (second.writes.grown.trans grown) g old
    · have linked := second.linked pool grown g new
      rwa [first.unit_eq] at linked
  fewer := Nat.le_trans second.fewer first.fewer

theorem congr (pass : Pass s t code fs)
    (same : ∀ pool, t.pool.Grows pool → code pool = more pool) : Pass s t more fs :=
  { pass with toProgress := pass.toProgress.congr same }

theorem of_stage (stage : Stage s t code) : Pass s t code [] where
  toProgress := stage.toProgress
  created := Nat.le_of_eq stage.created.symm
  still := fun _ => stage.created
  routines := fun r member => .inl (stage.routines r member)
  linked := by simp
  fewer := stage.fewer

theorem kept (pass : Pass s t code fs) {more : Pool → List Slot} (progress : Progress s u more)
    (kept : u.created = t.created) (pool : u.pool = t.pool) (tokens : u.tokens = t.tokens) :
    Pass s u more fs where
  toProgress := progress
  created := by rw [kept]; exact pass.created
  still := by rw [kept]; exact pass.still
  routines := by rw [kept, pool]; exact pass.routines
  linked := by rw [pool]; exact pass.linked
  fewer := by rw [tokens]; exact pass.fewer

end Pass

/-- From `s` to `t` some statements were compiled. They leave new locals in the current scope and
new breaks in the innermost loop. -/
structure Advance (s t : Compiler) (added : List Local) (code : Pool → List Slot)
    (fs : List Function) : Prop extends Pass s t code fs where
  locals : t.draft.locals = added ++ s.draft.locals
  depth : t.draft.depth = s.draft.depth
  loops : t.draft.loops = addBreaks s.draft.loops (exitsFrom s.here (code t.pool))

namespace Advance

variable {s t u : Compiler} {added newer : List Local} {code more : Pool → List Slot}
  {fs gs : List Function}

theorem trans (first : Advance s t added code fs) (second : Advance t u newer more gs) :
    Advance s u (newer ++ added) (fun pool => code pool ++ more pool) (fs ++ gs) where
  toPass := first.toPass.trans second.toPass
  locals := by rw [second.locals, first.locals, List.append_assoc]
  depth := second.depth.trans first.depth
  loops := by
    have rigid := first.writes.rigid second.writes.grown
    rw [second.loops, first.loops, ← addBreaks_append]
    rw [exitsFrom_append, rigid, first.writes.here_eq (.refl _)]

theorem congr (advance : Advance s t added code fs)
    (same : ∀ pool, t.pool.Grows pool → code pool = more pool) : Advance s t added more fs where
  toPass := advance.toPass.congr same
  locals := advance.locals
  depth := advance.depth
  loops := by rw [advance.loops, same _ (.refl _)]

theorem of_stage {code : Pool → List Directive}
    (stage : Stage s t fun pool => fixedSlots (code pool)) :
    Advance s t [] (fun pool => fixedSlots (code pool)) [] where
  toPass := .of_stage stage
  locals := stage.locals
  depth := stage.depth
  loops := by rw [exitsFrom_fixedSlots, addBreaks_nil, stage.loops]

theorem refl (ready : Ready s) (positive : 1 ≤ s.previous.line) :
    Advance s s [] (fun _ => []) [] :=
  of_stage (show Stage s s fun _ => fixedSlots [] from .refl ready positive)

theorem andThen (first : Advance s t added code fs) {more : Pool → List Directive}
    (second : Stage t u fun pool => fixedSlots (more pool)) :
    Advance s u added (fun pool => code pool ++ fixedSlots (more pool)) fs := by
  have whole := first.trans (of_stage second)
  rwa [List.append_nil] at whole

theorem quietly (first : Advance s t added code fs) (second : Stage t u fun _ => []) :
    Advance s u added code fs :=
  (first.andThen (show Stage t u fun _ => fixedSlots [] from second)).congr
    fun _ _ => List.append_nil _

section

variable (first : Advance s t added code fs)

include first

theorem start : Stage t t fun _ => [] := .refl first.ready first.positive

theorem emitOp (op : Operation) (plain : op.operand = .none) :
    Advance s (t.emitOp op) added (fun pool => code pool ++ fixedSlots [⟨op, 0⟩]) fs :=
  first.andThen (first.start.emitOp op plain)

theorem emitWith (op : Operation) (narrow : op.operand.width = 1) {operand : Nat}
    (named : Pool → Directive)
    (same : ∀ pool, t.pool.Grows pool → named pool = ⟨op, operand⟩ ∧
      Directive.Fits pool ⟨op, operand⟩) :
    Advance s (t.emitWith op operand.toUInt8) added
      (fun pool => code pool ++ fixedSlots [named pool]) fs :=
  first.andThen (first.start.emitWith op narrow named same)

theorem emitJump (op : Operation) (jump : op.operand = .jump) :
    Advance s (t.emitJump op) added (fun pool => code pool ++ fixedSlots [⟨op, Slot.unset⟩]) fs :=
  first.andThen (first.start.emitJump op jump)

theorem emitLoop {start : Nat} (before : start ≤ t.here)
    (done : (t.emitLoop start).diagnostics = #[]) :
    Advance s (t.emitLoop start) added
      (fun pool => code pool ++ fixedSlots [loopBack t.here start]) fs :=
  first.andThen (first.start.emitLoop before done)

theorem consume {kind : Kind} {c : Complaint} (notEnd : kind ≠ .eof)
    (done : (t.consume kind c).diagnostics = #[]) :
    Advance s (t.consume kind c) added code fs ∧
      Reader.expect kind t.stream = some (t.consume kind c).stream ∧
      (t.consume kind c).tokens.length < t.tokens.length := by
  obtain ⟨stage, expected, fewer⟩ := first.start.consume notEnd done
  exact ⟨first.quietly stage, expected, fewer⟩

end

theorem patch {before after : Pool → List Slot} {op : Operation}
    (first : Advance s t added (fun pool => before pool ++ .fixed ⟨op, Slot.unset⟩ :: after pool) fs)
    (jump : op.operand = .jump)
    (rigid : ∀ pool, t.pool.Grows pool → before pool = before t.pool) {position : Nat}
    (place : position = s.here + slotsSize (before t.pool) + 1)
    (done : (t.patchJump position).diagnostics = #[]) :
    Advance s (t.patchJump position) added
      (fun pool => before pool ++ .fixed ⟨op, slotsSize (after pool)⟩ :: after pool) fs := by
  obtain ⟨progress, -, -⟩ := first.toProgress.patch jump rigid place done
  have patched := Patched.of_patch first.audible done
  refine {
    toPass := first.toPass.kept progress patched.created patched.pool patched.tokens
    locals := patched.locals.trans first.locals
    depth := patched.depth.trans first.depth
    loops := ?_ }
  rw [patched.loops, first.loops, patched.pool, exitsFrom_append, exitsFrom_append]
  have size : Directive.size ⟨op, Slot.unset⟩ =
    Directive.size ⟨op, slotsSize (after t.pool)⟩ := rfl
  rw [exitsFrom, exitsFrom, size]

end Advance

theorem Scoped.of_advance {s t : Compiler} {added : List Local} {code : Pool → List Slot}
    {fs : List Function} (shape : Scoped s) (advance : Advance s t added code fs)
    (initialized : ∀ l ∈ added, l.depth = some s.draft.depth)
    (room : t.draft.locals.length ≤ maxLocals) : Scoped t where
  nonempty := by
    rw [advance.locals]
    exact List.append_ne_nil_of_right_ne_nil _ shape.nonempty
  bounded := by
    intro l member
    rw [advance.locals] at member
    rw [advance.depth]
    rcases List.mem_append.mp member with new | old
    · exact ⟨_, initialized l new, Nat.le_refl _⟩
    · exact shape.bounded l old
  room := room
  numbered := by
    intro r member
    rcases advance.routines r member with old | ⟨-, bound⟩
    · exact Nat.lt_of_lt_of_le (shape.numbered r old) advance.created
    · exact bound
  behind := by
    intro loop member
    rw [advance.loops] at member
    obtain ⟨old, oldMember, start, -⟩ := mem_addBreaks member
    rw [← start]
    exact Nat.le_trans (shape.behind old oldMember) advance.here_le
  inside := by
    intro loop member
    rw [advance.loops] at member
    obtain ⟨old, oldMember, -, depth⟩ := mem_addBreaks member
    rw [← depth, advance.depth]
    exact shape.inside old oldMember

theorem Scoped.of_advance_nil {s t : Compiler} {code : Pool → List Slot} {fs : List Function}
    (shape : Scoped s) (advance : Advance s t [] code fs) : Scoped t :=
  shape.of_advance advance (by simp) (by rw [advance.locals]; exact shape.room)

theorem Advance.room_nil {s t : Compiler} {code : Pool → List Slot} {fs : List Function}
    (advance : Advance s t [] code fs) (shape : Scoped s) :
    t.draft.locals.length ≤ maxLocals := by
  rw [advance.locals]
  exact shape.room

theorem Advance.scope_nil {s t : Compiler} {code : Pool → List Slot} {fs : List Function}
    (advance : Advance s t [] code fs) : t.scope = s.scope := by
  rw [scope, scope, advance.locals]
  rfl

theorem Deep.of_advance {s t : Compiler} {added : List Local} {code : Pool → List Slot}
    {fs : List Function} (deep : Deep s) (advance : Advance s t added code fs) : Deep t := by
  intro loop member
  rw [advance.loops] at member
  obtain ⟨old, oldMember, -, depth⟩ := mem_addBreaks member
  rw [← depth, advance.depth]
  exact deep old oldMember

theorem Scoped.scope_eq {s : Compiler} (shape : Scoped s) :
    s.scope = s.draft.locals.dropLast.map Local.name := by
  have none : s.draft.locals.dropWhile (fun l => l.depth.isNone) = s.draft.locals := by
    cases localsEq : s.draft.locals with
    | nil => rfl
    | cons l rest =>
        obtain ⟨d, depth, -⟩ := shape.bounded l (by rw [localsEq]; exact List.mem_cons_self)
        rw [List.dropWhile_cons_of_neg (by simp [depth])]
  rw [scope, scopeOf, none]

theorem Scoped.scope_length {s : Compiler} (shape : Scoped s) :
    s.scope.length + 1 = s.draft.locals.length := by
  have positive := List.length_pos_iff.mpr shape.nonempty
  rw [shape.scope_eq, List.length_map, List.length_dropLast]
  omega

theorem Advance.scope_eq {s t : Compiler} {added : List Local} {code : Pool → List Slot}
    {fs : List Function} (advance : Advance s t added code fs) (shape : Scoped s)
    (shapeAfter : Scoped t) : t.scope = added.map Local.name ++ s.scope := by
  rw [shape.scope_eq, shapeAfter.scope_eq, advance.locals,
    List.dropLast_append_of_ne_nil shape.nonempty, List.map_append]

theorem Advance.site_eq {s t : Compiler} {added : List Local} {code : Pool → List Slot}
    {fs : List Function} (advance : Advance s t added code fs) (nonempty : s.draft.locals ≠ [])
    (deeper : ∀ loop ∈ s.draft.loops, ∀ l ∈ added, Local.isDeeper loop.depth l = true) :
    t.site = s.site := by
  rw [site, site, advance.loops, advance.locals]
  cases loopsEq : s.draft.loops with
  | nil => rfl
  | cons loop rest =>
      have all := deeper loop (by rw [loopsEq]; exact List.mem_cons_self)
      rw [List.dropLast_append_of_ne_nil nonempty]
      simp only [addBreaks, List.head?_cons, Option.map_some]
      rw [List.dropWhile_append_of_pos all]

end Reckoner.Compiler
