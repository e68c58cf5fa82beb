import Reckoner.Proofs.Compiler.Scope

/-!
Declaring and dropping locals, entering and leaving loops.
-/

namespace Reckoner.Compiler

open Script

def reframe (s : Compiler) (locals : List Local) (depth : Nat) (loops : List Loop) : Compiler :=
  { s with draft := { s.draft with locals, depth, loops } }

section Reframed

variable {s t : Compiler} {code : Pool → List Slot} {fs : List Function}
  (before after : List Local) (depth depthAfter : Nat) (loops loopsAfter : List Loop)

theorem Ready.reframe (ready : Ready s) : Ready (s.reframe before depth loops) :=
  ⟨ready.clean, ready.audible, ready.closed, ready.ordered, ready.positive⟩

theorem Progress.reframe (p : Progress s t code) :
    Progress (s.reframe before depth loops) (t.reframe after depthAfter loopsAfter) code := by
  obtain ⟨items, emitted, settled⟩ := p.writes
  refine ⟨p.ready.reframe after depthAfter loopsAfter, p.positive, items, ?_, settled⟩
  exact ⟨emitted.code, emitted.lines, emitted.ordered, emitted.positive, emitted.header,
    emitted.grown, emitted.unit, emitted.enclosing⟩

theorem Pass.reframe (pass : Pass s t code fs) :
    Pass (s.reframe before depth loops) (t.reframe after depthAfter loopsAfter) code fs where
  toProgress := pass.toProgress.reframe before after depth depthAfter loops loopsAfter
  created := pass.created
  still := pass.still
  routines := pass.routines
  linked := pass.linked
  fewer := pass.fewer

end Reframed

/-! Locals -/

def withLocals (s : Compiler) (locals : List Local) : Compiler :=
  { s with draft := { s.draft with locals } }

def declared (depth : Nat) (name : String) (state : Option Nat) : List Local :=
  if depth = 0 then [] else [⟨name, state⟩]

theorem declareVariable_eq {s : Compiler} (audible : s.silent = false)
    (room : s.draft.locals.length ≤ maxLocals) (done : s.declareVariable.diagnostics = #[]) :
    s.declareVariable =
        s.withLocals (declared s.draft.depth s.previous.lexeme none ++ s.draft.locals) ∧
      s.declareVariable.draft.locals.length ≤ maxLocals := by
  unfold declareVariable at done ⊢
  split at done
  · rename_i outside
    rw [if_pos outside, declared, if_pos outside]
    exact ⟨rfl, room⟩
  · rename_i within
    rw [if_neg within, declared, if_neg within]
    simp only [] at done ⊢
    split at done
    · exact absurd ((reports_addLocal _ _).clean done) (fault_diagnostics_ne audible _)
    · rename_i fresh
      rw [if_neg fresh]
      unfold addLocal at done ⊢
      split at done
      · exact absurd done (fault_diagnostics_ne audible _)
      · rename_i free
        rw [if_neg free]
        refine ⟨rfl, ?_⟩
        simp only [List.length_cons]
        omega

theorem Advance.withLocals {s t : Compiler} {added newer : List Local} {code : Pool → List Slot}
    {fs : List Function} (first : Advance s t added code fs) {locals : List Local}
    (same : locals = newer ++ s.draft.locals) :
    Advance s (t.withLocals locals) newer code fs where
  toPass := first.toPass.reframe s.draft.locals locals s.draft.depth t.draft.depth s.draft.loops
    t.draft.loops
  locals := same
  depth := first.depth
  loops := first.loops

def Names (t : Compiler) (byte : UInt8) (name : String) : Prop :=
  ∃ index, byte = index.toUInt8 ∧ index < 256 ∧
    ∀ pool, t.pool.Grows pool → pool.find (.text name) = index ∧ index < pool.size

theorem Names.later {t u : Compiler} {byte : UInt8} {name : String} (names : Names t byte name)
    (grown : t.pool.Grows u.pool) : Names u byte name := by
  obtain ⟨index, same, bound, later⟩ := names
  exact ⟨index, same, bound, fun pool more => later pool (grown.trans more)⟩

theorem Ready.identifier_eq {s : Compiler} (ready : Ready s) {c : Complaint}
    (done : (s.consume .identifier c).diagnostics = #[]) :
    Reader.identifier s.stream = some ((s.consume .identifier c).previous.lexeme,
      (s.consume .identifier c).stream) := by
  obtain ⟨matched, consumed⟩ := ready.consume_eq done
  have more : s.current.kind ≠ .eof := by rw [matched]; decide
  rw [consumed] at done ⊢
  obtain ⟨-, -, previous, stream, -⟩ := ready.advance_progress more done
  rw [previous, stream, Compiler.stream, Reader.identifier, if_pos matched]

theorem Advance.parseVariable {s t : Compiler} {code : Pool → List Slot} {fs : List Function}
    (first : Advance s t [] code fs) {c : Complaint}
    (room : t.draft.locals.length ≤ maxLocals)
    (done : (t.parseVariable c).1.diagnostics = #[]) :
    ∃ name, Reader.identifier t.stream = some (name, (t.parseVariable c).1.stream) ∧
      (t.parseVariable c).1.previous.lexeme = name ∧
      (t.parseVariable c).1.tokens.length < t.tokens.length ∧
      (t.parseVariable c).1.draft.locals.length ≤ maxLocals ∧
      Advance s (t.parseVariable c).1 (declared s.draft.depth name none) code fs ∧
      (s.draft.depth = 0 → Names (t.parseVariable c).1 (t.parseVariable c).2 name) := by
  simp only [Compiler.parseVariable] at done ⊢
  have clean : (t.consume .identifier c).declareVariable.diagnostics = #[] := by
    split at done
    · exact done
    · exact (reports_constant _ _).clean done
  have cleanName := (reports_declareVariable _).clean clean
  have read := first.ready.identifier_eq cleanName
  obtain ⟨passed, -, shorter⟩ := first.consume (by decide) cleanName
  have roomPassed : (t.consume .identifier c).draft.locals.length ≤ maxLocals := by
    rw [passed.locals, ← first.locals]
    exact room
  obtain ⟨equal, roomDeclared⟩ := declareVariable_eq passed.audible roomPassed clean
  have advanced : Advance s (t.consume .identifier c).declareVariable
      (declared s.draft.depth (t.consume .identifier c).previous.lexeme none) code fs := by
    rw [equal]
    exact passed.withLocals (by rw [passed.locals, passed.depth]; rfl)
  generalize t.consume .identifier c = u at *
  have stream : u.declareVariable.stream = u.stream := by rw [equal]; rfl
  have previous : u.declareVariable.previous = u.previous := by rw [equal]; rfl
  have tokens : u.declareVariable.tokens = u.tokens := by rw [equal]; rfl
  have depth := advanced.depth
  generalize u.declareVariable = w at *
  refine ⟨u.previous.lexeme, ?_⟩
  by_cases within : 0 < w.draft.depth
  · rw [if_pos within]
    refine ⟨by rw [read, stream], by rw [previous], by rw [tokens]; exact shorter, roomDeclared,
      advanced, fun outside => ?_⟩
    omega
  · rw [if_neg within] at done ⊢
    obtain ⟨progress, kept, input, names⟩ :=
      advanced.ready.constant_progress advanced.positive (by simp) (by simp) done
    refine ⟨by rw [read, input.stream, stream], by rw [input.previous, previous],
      by rw [input.tokens, tokens]; exact shorter, by rw [kept.locals]; exact roomDeclared,
      advanced.quietly (.of_step ⟨progress, kept, input⟩), fun _ => ?_⟩
    rw [← previous]
    exact names

theorem Advance.markInitialized {s t : Compiler} {code : Pool → List Slot} {fs : List Function}
    {name : String} {state : Option Nat}
    (first : Advance s t (declared s.draft.depth name state) code fs) :
    Advance s t.markInitialized (declared s.draft.depth name (some s.draft.depth)) code fs ∧
      t.markInitialized.stream = t.stream ∧
      t.markInitialized.draft.locals.length = t.draft.locals.length := by
  unfold Compiler.markInitialized
  by_cases outside : t.draft.depth = 0
  · rw [if_pos outside]
    refine ⟨?_, rfl, rfl⟩
    rw [first.depth] at outside
    rw [declared, if_pos outside] at first ⊢
    exact first
  · rw [if_neg outside]
    have locals := first.locals
    have depth := first.depth
    rw [depth] at outside
    rw [declared, if_neg outside] at first locals ⊢
    rw [List.singleton_append] at locals
    rw [locals]
    refine ⟨first.withLocals ?_, rfl, rfl⟩
    rw [depth]
    rfl

theorem Advance.defineVariable {s t : Compiler} {code : Pool → List Slot} {fs : List Function}
    {name : String} {state : Option Nat} {byte : UInt8}
    (first : Advance s t (declared s.draft.depth name state) code fs)
    (names : s.draft.depth = 0 → Names t byte name) :
    Advance s (t.defineVariable byte) (declared s.draft.depth name (some s.draft.depth))
        (fun pool => code pool ++ fixedSlots (defineCode pool (s.draft.depth == 0) name)) fs ∧
      (t.defineVariable byte).stream = t.stream ∧
      (t.defineVariable byte).draft.locals.length = t.draft.locals.length := by
  unfold Compiler.defineVariable
  rw [first.depth]
  by_cases outside : s.draft.depth = 0
  · obtain ⟨index, rfl, bound, later⟩ := names outside
    rw [if_neg (by omega)]
    have global : (s.draft.depth == 0) = true := by rw [outside]; rfl
    rw [declared, if_pos outside] at first ⊢
    refine ⟨?_, rfl, rfl⟩
    rw [global]
    refine first.emitWith .defineGlobal rfl (fun pool => ⟨.defineGlobal, pool.find (.text name)⟩) ?_
    intro pool grown
    obtain ⟨position, inPool⟩ := later pool grown
    rw [position]
    exact ⟨rfl, bound, fun _ => inPool⟩
  · rw [if_pos (by omega)]
    obtain ⟨marked, stream, room⟩ := first.markInitialized
    refine ⟨marked.congr fun pool _ => ?_, stream, room⟩
    have inScope : (s.draft.depth == 0) = false := beq_false_of_ne outside
    rw [inScope, defineCode]
    exact (List.append_nil _).symm

/-! Scopes -/

theorem Advance.emitPops {s t : Compiler} {added : List Local} {code : Pool → List Slot}
    {fs : List Function} (first : Advance s t added code fs) {n : Nat} (small : n < 256) :
    Advance s (t.emitPops n) added (fun pool => code pool ++ fixedSlots (popCode n)) fs ∧
      (t.emitPops n).stream = t.stream := by
  match n with
  | 0 => exact ⟨first.congr fun pool _ => (List.append_nil _).symm, rfl⟩
  | 1 => exact ⟨first.emitOp .pop rfl, rfl⟩
  | n + 2 =>
      refine ⟨first.emitWith .popN rfl (fun _ => ⟨.popN, n + 2⟩) fun pool _ => ⟨rfl, small, ?_⟩, rfl⟩
      exact fun constant => absurd constant (show Operand.count ≠ .constant by decide)

theorem Advance.endScope {s t : Compiler} {added : List Local} {code : Pool → List Slot}
    {fs : List Function} (shape : Scoped s) (first : Advance s.beginScope t added code fs)
    (inner : ∀ l ∈ added, l.depth = some (s.draft.depth + 1))
    (room : t.draft.locals.length ≤ maxLocals) :
    Advance s t.endScope [] (fun pool => code pool ++ fixedSlots (popCode added.length)) fs ∧
      t.endScope.stream = t.stream := by
  have depth : t.draft.depth - 1 = s.draft.depth := by
    rw [first.depth]
    rfl
  have locals : t.draft.locals = added ++ s.draft.locals := first.locals
  have kept : t.draft.locals.dropWhile (Local.isDeeper s.draft.depth) = s.draft.locals := by
    rw [locals, List.dropWhile_append_of_pos]
    · cases localsEq : s.draft.locals with
      | nil => rfl
      | cons l rest =>
          obtain ⟨d, known, bound⟩ := shape.bounded l (by rw [localsEq]; exact List.mem_cons_self)
          rw [List.dropWhile_cons_of_neg]
          simp only [Local.isDeeper, known, Option.any_some, decide_eq_true_eq]
          omega
    · intro l member
      simp [Local.isDeeper, inner l member]
  have popped : t.draft.locals.length - s.draft.locals.length = added.length := by
    rw [locals, List.length_append]
    omega
  have positive := List.length_pos_iff.mpr shape.nonempty
  have small : added.length < 256 := by
    rw [locals, List.length_append] at room
    simp only [maxLocals] at room
    omega
  have closed : Advance s (t.reframe s.draft.locals s.draft.depth t.draft.loops) [] code fs :=
    { toPass := first.toPass.reframe s.draft.locals s.draft.locals s.draft.depth s.draft.depth
        s.draft.loops t.draft.loops
      locals := rfl
      depth := rfl
      loops := first.loops }
  simp only [Compiler.endScope, depth, kept, popped]
  exact closed.emitPops small

/-! Loops -/

@[simp] theorem created_popLoop (s : Compiler) : s.popLoop.created = s.created := by
  have patches : ∀ (breaks : List Nat) (t : Compiler),
      (breaks.foldl patchJump t).created = t.created := by
    intro breaks
    induction breaks with
    | nil => exact fun _ => rfl
    | cons position rest ih => exact fun t => (ih _).trans (created_patchJump t position)
  unfold popLoop
  split
  · rfl
  · exact patches _ _

@[simp] theorem pool_popLoop (s : Compiler) : s.popLoop.pool = s.pool := by
  have patches : ∀ (breaks : List Nat) (t : Compiler),
      (breaks.foldl patchJump t).pool = t.pool := by
    intro breaks
    induction breaks with
    | nil => exact fun _ => rfl
    | cons position rest ih => exact fun t => (ih _).trans (pool_patchJump t position)
  unfold popLoop
  split
  · rfl
  · exact patches _ _

@[simp] theorem pool_endScope (s : Compiler) : s.endScope.pool = s.pool := by
  simp only [endScope, emitPops]
  split <;> rfl

@[simp] theorem created_endScope (s : Compiler) : s.endScope.created = s.created := by
  simp only [endScope, emitPops]
  split <;> rfl

theorem Advance.pushLoop {s t : Compiler} {code : Pool → List Directive} {fs : List Function}
    (first : Advance s t [] (fun pool => fixedSlots (code pool)) fs) (start : Nat) :
    Advance (s.pushLoop start) (t.pushLoop start) [] (fun pool => fixedSlots (code pool)) fs where
  toPass := first.toPass.reframe s.draft.locals t.draft.locals s.draft.depth t.draft.depth
    (s.pushLoop start).draft.loops (t.pushLoop start).draft.loops
  locals := first.locals
  depth := first.depth
  loops := by
    have outer := first.loops
    rw [exitsFrom_fixedSlots, addBreaks_nil] at outer ⊢
    simp only [Compiler.pushLoop, outer, first.depth]

theorem Advance.popLoop {s t : Compiler} {code : Pool → List Slot} {fs : List Function}
    {start : Nat} (first : Advance (s.pushLoop start) t [] code fs)
    (done : t.popLoop.diagnostics = #[]) :
    Advance s t.popLoop [] (fun pool => fixedSlots (resolveFrom t.here s.here (code pool))) fs ∧
      t.popLoop.stream = t.stream := by
  have loops : t.draft.loops =
      ⟨start, s.draft.depth, exitsFrom s.here (code t.pool)⟩ :: s.draft.loops := first.loops
  simp only [Compiler.popLoop, loops] at done ⊢
  generalize uEq : t.reframe t.draft.locals t.draft.depth s.draft.loops = u
  have outer : Pass s u code fs := by
    rw [← uEq]
    exact first.toPass.reframe s.draft.locals t.draft.locals s.draft.depth t.draft.depth
      s.draft.loops s.draft.loops
  have pool : u.pool = t.pool := by rw [← uEq]; rfl
  have here : u.here = t.here := by rw [← uEq]; rfl
  have stream : u.stream = t.stream := by rw [← uEq]; rfl
  have same : { t with draft := { t.draft with loops := s.draft.loops } } = u := uEq
  rw [same] at done ⊢
  obtain ⟨progress, patched⟩ := outer.toProgress.resolve (by rw [pool]) done
  rw [here] at progress
  have whole := outer.kept progress patched.created patched.pool patched.tokens
  refine ⟨⟨whole, ?_, ?_, ?_⟩, patched.stream.trans stream⟩
  · rw [patched.locals, ← uEq]
    exact first.locals
  · rw [patched.depth, ← uEq]
    exact first.depth
  · rw [patched.loops, exitsFrom_fixedSlots, addBreaks_nil, ← uEq]
    rfl

end Reckoner.Compiler
