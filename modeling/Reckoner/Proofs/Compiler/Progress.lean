import Reckoner.Proofs.Compiler.Emission

/-!
Progress of a compilation without diagnostics. The code written from one state to a later one is
given as a function of the finished pool, so that pieces can be put together before the pool is
complete.
-/

namespace Reckoner.Compiler

open Script

/-- From `s` to `t` the given code was written, whatever the pool is going to be. -/
def Writes (s t : Compiler) (code : Pool → List Slot) : Prop :=
  ∃ items, Emits s t items ∧ ∀ pool, t.pool.Grows pool →
    slotsOfItems items = code pool ∧ ∀ slot ∈ code pool, slot.Fits pool

namespace Writes

variable {s t u : Compiler} {code more : Pool → List Slot}

theorem trans (first : Writes s t code) (second : Writes t u more) :
    Writes s u fun pool => code pool ++ more pool := by
  obtain ⟨a, emitted, settled⟩ := first
  obtain ⟨b, emittedMore, settledMore⟩ := second
  refine ⟨a ++ b, emitted.trans emittedMore, ?_⟩
  intro pool grown
  obtain ⟨slots, fits⟩ := settled pool (emittedMore.grown.trans grown)
  obtain ⟨slotsMore, fitsMore⟩ := settledMore pool grown
  refine ⟨by rw [slotsOfItems_append, slots, slotsMore], ?_⟩
  intro slot member
  rcases List.mem_append.mp member with old | new
  · exact fits slot old
  · exact fitsMore slot new

theorem of_emits (e : Emits s t []) : Writes s t fun _ => [] :=
  ⟨[], e, fun _ _ => ⟨rfl, by simp⟩⟩

theorem here_eq (w : Writes s t code) {pool : Pool} (grown : t.pool.Grows pool) :
    t.here = s.here + slotsSize (code pool) := by
  obtain ⟨items, emitted, settled⟩ := w
  rw [emitted.here_eq, (settled pool grown).1]

theorem grown (w : Writes s t code) : s.pool.Grows t.pool := by
  obtain ⟨items, emitted, -⟩ := w
  exact emitted.grown

theorem rigid (w : Writes s t code) {pool : Pool} (grown : t.pool.Grows pool) :
    code pool = code t.pool := by
  obtain ⟨items, emitted, settled⟩ := w
  rw [← (settled pool grown).1, (settled t.pool (.refl _)).1]

theorem congr (w : Writes s t code) (same : ∀ pool, t.pool.Grows pool → code pool = more pool) :
    Writes s t more := by
  obtain ⟨items, emitted, settled⟩ := w
  refine ⟨items, emitted, ?_⟩
  intro pool grown
  rw [← same pool grown]
  exact settled pool grown

end Writes

/-- The compilation went on from `s` to `t` without a complaint and wrote the given code. -/
structure Progress (s t : Compiler) (code : Pool → List Slot) : Prop where
  ready : Ready t
  positive : 1 ≤ t.previous.line
  writes : Writes s t code

structure Kept (s t : Compiler) : Prop where
  locals : t.draft.locals = s.draft.locals
  depth : t.draft.depth = s.draft.depth
  loops : t.draft.loops = s.draft.loops
  created : t.created = s.created
  routines : ∀ r, .routine r ∈ t.pool → .routine r ∈ s.pool

namespace Kept

variable {s t u : Compiler}

theorem refl (s : Compiler) : Kept s s := ⟨rfl, rfl, rfl, rfl, fun _ member => member⟩

theorem trans (first : Kept s t) (second : Kept t u) : Kept s u where
  locals := second.locals.trans first.locals
  depth := second.depth.trans first.depth
  loops := second.loops.trans first.loops
  created := second.created.trans first.created
  routines := fun r member => first.routines r (second.routines r member)

theorem past (t : Token) (rest : List Token) : Kept s (s.past t rest) := by
  exact ⟨rfl, rfl, rfl, rfl, fun _ member => member⟩

theorem written (s : Compiler) (bytes : List UInt8) : Kept s (s.written bytes) := by
  obtain ⟨draft, whole, locals, depth, loops, -, constants⟩ := written_eq s bytes
  rw [whole]
  refine ⟨locals, depth, loops, rfl, ?_⟩
  intro r member
  rw [pool] at member ⊢
  rwa [constants] at member

theorem withPool {pool : Pool} {c : Constant} (plain : ∀ r, c ≠ .routine r)
    (source : pool = s.pool ∨ pool = s.pool.push c) : Kept s (s.withPool pool) := by
  refine ⟨rfl, rfl, rfl, rfl, ?_⟩
  intro r member
  have stored : Constant.routine r ∈ pool := member
  rcases source with same | pushed
  · rwa [same] at stored
  · rw [pushed, Array.mem_push] at stored
    rcases stored with old | new
    · exact old
    · exact absurd new.symm (plain r)

theorem withCode (s : Compiler) (code : Array UInt8) : Kept s (s.withCode code) :=
  ⟨rfl, rfl, rfl, rfl, fun _ member => member⟩

end Kept

namespace Progress

variable {s t : Compiler} {code more : Pool → List Slot}

theorem refl (ready : Ready s) (positive : 1 ≤ s.previous.line) : Progress s s fun _ => [] :=
  ⟨ready, positive, .of_emits (.refl s)⟩

theorem trans {u : Compiler} (first : Progress s t code) (second : Progress t u more) :
    Progress s u fun pool => code pool ++ more pool :=
  ⟨second.ready, second.positive, first.writes.trans second.writes⟩

theorem congr (p : Progress s t code) (same : ∀ pool, t.pool.Grows pool → code pool = more pool) :
    Progress s t more :=
  ⟨p.ready, p.positive, p.writes.congr same⟩

theorem audible (p : Progress s t code) : t.silent = false := p.ready.audible

end Progress

/-! Tokens passed -/

theorem Ready.advance_progress {s : Compiler} (ready : Ready s) (more : s.current.kind ≠ .eof)
    (done : s.advance.diagnostics = #[]) :
    Progress s s.advance (fun _ => []) ∧ Kept s s.advance ∧ s.advance.previous = s.current ∧
      s.advance.stream = s.tokens ∧ s.advance.tokens.length + 1 = s.tokens.length := by
  obtain ⟨t, rest, tokensEq, advanced⟩ := ready.advance_eq more done
  rw [advanced]
  refine ⟨⟨ready.past tokensEq more, ready.current_pos, ?_⟩, .past t rest, rfl, tokensEq.symm, ?_⟩
  · exact .of_emits (.quiet rfl ready.previous_le rfl rfl)
  · rw [tokensEq]
    rfl

theorem Ready.consume_progress {s : Compiler} (ready : Ready s) {kind : Kind} {c : Complaint}
    (notEnd : kind ≠ .eof) (done : (s.consume kind c).diagnostics = #[]) :
    Progress s (s.consume kind c) (fun _ => []) ∧ Kept s (s.consume kind c) ∧
      (s.consume kind c).previous = s.current ∧
      Reader.expect kind s.stream = some (s.consume kind c).stream ∧
      (s.consume kind c).tokens.length + 1 = s.tokens.length := by
  obtain ⟨matched, consumed⟩ := ready.consume_eq done
  have more : s.current.kind ≠ .eof := by rw [matched]; exact notEnd
  rw [consumed] at done
  obtain ⟨progress, kept, previous, stream, shorter⟩ := ready.advance_progress more done
  rw [consumed]
  refine ⟨progress, kept, previous, ?_, shorter⟩
  rw [Compiler.stream, Reader.expect, if_pos matched, stream]

/-! Code written -/

theorem Ready.written_progress {s : Compiler} (ready : Ready s) (positive : 1 ≤ s.previous.line)
    {d : Directive} (named : Pool → Directive)
    (same : ∀ pool, s.pool.Grows pool → named pool = d ∧ d.Fits pool) :
    Progress s (s.written d.bytes) fun pool => [.fixed (named pool)] := by
  obtain ⟨draft, whole, locals, depth, loops, header, constants⟩ := written_eq s d.bytes
  have emitted := emits_written positive d
  have unchanged : (s.written d.bytes).pool = s.pool := by
    rw [whole]
    exact constants
  refine ⟨?_, ?_, [⟨.fixed d, s.previous.line⟩], emitted, ?_⟩
  · rw [whole]
    exact ⟨ready.clean, ready.audible, ready.closed, ready.ordered, ready.positive⟩
  · rw [whole]
    exact positive
  · intro pool grown
    rw [unchanged] at grown
    obtain ⟨equal, fits⟩ := same pool grown
    dsimp only
    rw [equal]
    refine ⟨rfl, ?_⟩
    intro slot member
    rw [List.mem_singleton.mp member]
    exact fits

structure SameInput (s t : Compiler) : Prop where
  stream : t.stream = s.stream
  tokens : t.tokens = s.tokens
  previous : t.previous = s.previous

theorem SameInput.written (s : Compiler) (bytes : List UInt8) : SameInput s (s.written bytes) := by
  obtain ⟨draft, whole, -⟩ := written_eq s bytes
  rw [whole]
  exact ⟨rfl, rfl, rfl⟩

section

variable {s : Compiler} (ready : Ready s) (positive : 1 ≤ s.previous.line)

include ready positive

theorem Ready.emitOp_progress {op : Operation} (plain : op.operand = .none) :
    Progress s (s.emitOp op) (fun _ => [.fixed ⟨op, 0⟩]) ∧ Kept s (s.emitOp op) ∧
      SameInput s (s.emitOp op) := by
  rw [emitOp_eq s plain]
  refine ⟨?_, .written _ _, .written _ _⟩
  exact ready.written_progress positive _ fun pool _ => ⟨rfl, Directive.fits_plain pool plain⟩

theorem Ready.emitWith_progress {op : Operation} (narrow : op.operand.width = 1) {operand : Nat}
    (named : Pool → Directive)
    (same : ∀ pool, s.pool.Grows pool → named pool = ⟨op, operand⟩ ∧
      Directive.Fits pool ⟨op, operand⟩) :
    Progress s (s.emitWith op operand.toUInt8) (fun pool => [.fixed (named pool)]) ∧
      Kept s (s.emitWith op operand.toUInt8) ∧ SameInput s (s.emitWith op operand.toUInt8) := by
  rw [emitWith_eq s narrow]
  exact ⟨ready.written_progress positive named same, .written _ _, .written _ _⟩

theorem Ready.emitJump_progress {op : Operation} (jump : op.operand = .jump) :
    Progress s (s.emitJump op) (fun _ => [.fixed ⟨op, Slot.unset⟩]) ∧ Kept s (s.emitJump op) ∧
      SameInput s (s.emitJump op) := by
  have wide : op.operand.width = 2 := by rw [jump]; rfl
  rw [emitJump_eq s wide]
  refine ⟨?_, .written _ _, .written _ _⟩
  refine ready.written_progress positive (fun _ => ⟨op, Slot.unset⟩) fun pool _ => ⟨rfl, ?_, ?_⟩
  · rw [wide]
    exact (by decide : Slot.unset < Nat.pow 256 2)
  · intro constant
    rw [jump] at constant
    exact absurd constant (by decide)

theorem Ready.emitLoop_progress {start : Nat} (before : start ≤ s.here)
    (done : (s.emitLoop start).diagnostics = #[]) :
    Progress s (s.emitLoop start) (fun _ => [.fixed (loopBack s.here start)]) ∧
      Kept s (s.emitLoop start) ∧ SameInput s (s.emitLoop start) := by
  obtain ⟨equal, short⟩ := emitLoop_eq ready.audible before done
  rw [equal]
  refine ⟨?_, .written _ _, .written _ _⟩
  refine ready.written_progress positive (fun _ => loopBack s.here start)
    fun pool _ => ⟨rfl, short, ?_⟩
  intro constant
  exact absurd constant (show Operand.loop ≠ .constant by decide)

omit positive in
theorem Ready.constant_progress (positive : 1 ≤ s.previous.line) {c : Constant}
    (known : c ≠ .foreign) (plain : ∀ r, c ≠ .routine r)
    (done : (s.constant c).1.diagnostics = #[]) :
    Progress s (s.constant c).1 (fun _ => []) ∧ Kept s (s.constant c).1 ∧
      SameInput s (s.constant c).1 ∧ ∃ index, (s.constant c).2 = index.toUInt8 ∧ index < 256 ∧
        ∀ pool, (s.constant c).1.pool.Grows pool → pool.find c = index ∧ index < pool.size := by
  obtain ⟨pool, equal, bound, byte, source⟩ := constant_eq ready.audible known done
  have grown : s.pool.Grows pool := by
    rcases source with same | pushed
    · rw [same]
      exact .refl _
    · rw [pushed]
      exact .push _ _
  rw [equal]
  refine ⟨⟨?_, positive, .of_emits (emits_withPool s grown)⟩, .withPool plain source,
    ⟨rfl, rfl, rfl⟩, pool.find c, rfl, byte, ?_⟩
  · exact ⟨ready.clean, ready.audible, ready.closed, ready.ordered, ready.positive⟩
  · intro later grownLater
    exact ⟨grownLater.find_eq bound, Nat.lt_of_lt_of_le bound grownLater.size_le⟩

end

theorem Progress.patch {s t : Compiler} {before after : Pool → List Slot} {op : Operation}
    (p : Progress s t fun pool => before pool ++ .fixed ⟨op, Slot.unset⟩ :: after pool)
    (jump : op.operand = .jump)
    (rigid : ∀ pool, t.pool.Grows pool → before pool = before t.pool) {position : Nat}
    (place : position = s.here + slotsSize (before t.pool) + 1)
    (done : (t.patchJump position).diagnostics = #[]) :
    Progress s (t.patchJump position)
        (fun pool => before pool ++ .fixed ⟨op, slotsSize (after pool)⟩ :: after pool) ∧
      Kept t (t.patchJump position) ∧ SameInput t (t.patchJump position) := by
  have wide : op.operand.width = 2 := by rw [jump]; rfl
  obtain ⟨-, patched⟩ := patchJump_eq p.audible done
  obtain ⟨items, emitted, settled⟩ := p.writes
  obtain ⟨slots, -⟩ := settled t.pool (.refl _)
  obtain ⟨a, others, rfl, slotsA, slotsOthers⟩ := List.map_eq_append_iff.mp slots
  obtain ⟨item, b, rfl, slotItem, slotsB⟩ := List.map_eq_cons_iff.mp slotsOthers
  have pending : item.slot.draft = ⟨op, Slot.unset⟩ := by rw [slotItem]; rfl
  have split : Emits s t (a ++ ⟨item.slot, item.line⟩ :: b) := emitted
  obtain ⟨e, short⟩ := split.patch p.audible pending wide
    (by rw [place, slotsOfItems, slotsA]) done
  refine ⟨⟨?_, ?_, _, e, ?_⟩, ?_, ?_⟩
  · rw [patched]
    exact ⟨p.ready.clean, p.ready.audible, p.ready.closed, p.ready.ordered, p.ready.positive⟩
  · rw [patched]
    exact p.positive
  · intro pool grown
    have grownT : t.pool.Grows pool := by rwa [patched] at grown
    obtain ⟨same, fits⟩ := settled pool grownT
    dsimp only at same fits ⊢
    have parts : before pool ++ .fixed ⟨op, Slot.unset⟩ :: after pool =
        before pool ++ .fixed ⟨op, Slot.unset⟩ :: slotsOfItems b := by
      rw [← same, slotsOfItems_append, slotsOfItems_cons, slotItem, slotsOfItems, slotsA,
        rigid pool grownT]
    have behind : after pool = slotsOfItems b := by
      have tails := List.append_cancel_left parts
      exact (List.cons.inj tails).2
    rw [behind] at fits ⊢
    rw [slotsOfItems_append, slotsOfItems_cons, slotsOfItems, slotsA, rigid pool grownT]
    refine ⟨rfl, ?_⟩
    intro slot member
    rw [← rigid pool grownT] at member
    rcases List.mem_append.mp member with old | new
    · exact fits slot (List.mem_append_left _ old)
    · rcases List.mem_cons.mp new with this | later
      · rw [this]
        refine ⟨by rw [wide]; exact short, ?_⟩
        intro constant
        rw [jump] at constant
        exact absurd constant (by decide)
      · exact fits slot (List.mem_append_right _ (List.mem_cons_of_mem _ later))
  · rw [patched]
    exact .withCode _ _
  · rw [patched]
    exact ⟨rfl, rfl, rfl⟩

/-! Stages of a compilation -/

/-- From `s` to `t` the compiler has passed tokens and written code, and scopes, loops and nested
routines are again as they were. -/
structure Stage (s t : Compiler) (code : Pool → List Slot) : Prop
    extends Progress s t code, Kept s t where
  fewer : t.tokens.length ≤ s.tokens.length

@[simp] theorem stream_emitOp (s : Compiler) (op : Operation) :
    (s.emitOp op).stream = s.stream := rfl

@[simp] theorem stream_emitWith (s : Compiler) (op : Operation) (operand : UInt8) :
    (s.emitWith op operand).stream = s.stream := rfl

@[simp] theorem stream_emitJump (s : Compiler) (op : Operation) :
    (s.emitJump op).stream = s.stream := rfl

@[simp] theorem pool_emitOp (s : Compiler) (op : Operation) : (s.emitOp op).pool = s.pool := rfl

@[simp] theorem pool_emitJump (s : Compiler) (op : Operation) : (s.emitJump op).pool = s.pool := rfl

@[simp] theorem created_emitOp (s : Compiler) (op : Operation) :
    (s.emitOp op).created = s.created := rfl

@[simp] theorem created_emitJump (s : Compiler) (op : Operation) :
    (s.emitJump op).created = s.created := rfl

@[simp] theorem here_emitJump (s : Compiler) (op : Operation) :
    (s.emitJump op).here = s.here + 3 := by
  simp [emitJump, emitOp, emit, here, Routine.write]

@[simp] theorem stream_fault (s : Compiler) (c : Complaint) : (s.fault c).stream = s.stream := by
  rw [fault, report]
  split <;> rfl

@[simp] theorem stream_patchJump (s : Compiler) (position : Nat) :
    (s.patchJump position).stream = s.stream := by
  simp only [patchJump]
  split
  · exact stream_fault s _
  · rfl

@[simp] theorem stream_emitLoop (s : Compiler) (start : Nat) :
    (s.emitLoop start).stream = s.stream := by
  simp only [emitLoop]
  split
  · exact stream_fault (s.emitOp .loop) _
  · rfl

@[simp] theorem created_fault (s : Compiler) (c : Complaint) :
    (s.fault c).created = s.created := by
  rw [fault, report]
  split <;> rfl

@[simp] theorem created_patchJump (s : Compiler) (position : Nat) :
    (s.patchJump position).created = s.created := by
  simp only [patchJump]
  split
  · exact created_fault s _
  · rfl

@[simp] theorem created_emitLoop (s : Compiler) (start : Nat) :
    (s.emitLoop start).created = s.created := by
  simp only [emitLoop]
  split
  · exact created_fault (s.emitOp .loop) _
  · rfl

theorem draft_unless (s : Compiler) (c : Complaint) (p : Prop) [Decidable p] :
    (if p then s.fault c else s).draft = s.draft := by
  split
  · rw [fault, report]
    split <;> rfl
  · rfl

@[simp] theorem pool_patchJump (s : Compiler) (position : Nat) :
    (s.patchJump position).pool = s.pool := by
  simp only [patchJump, pool, draft_unless]

@[simp] theorem pool_emitLoop (s : Compiler) (start : Nat) : (s.emitLoop start).pool = s.pool := by
  simp only [emitLoop, emit, Routine.write, pool, draft_unless]
  rfl

@[simp] theorem here_emitOp (s : Compiler) (op : Operation) : (s.emitOp op).here = s.here + 1 :=
  Array.size_push _

@[simp] theorem here_patchJump (s : Compiler) (position : Nat) :
    (s.patchJump position).here = s.here := by
  rw [here]
  simp only [patchJump, Array.size_setIfInBounds, draft_unless]
  rfl

@[simp] theorem here_emitLoop (s : Compiler) (start : Nat) :
    (s.emitLoop start).here = s.here + 3 := by
  rw [here]
  simp only [emitLoop, emit, Routine.write, Array.size_push, draft_unless]
  exact congrArg (· + 2) (here_emitOp s .loop)

theorem SameInput.of_stream {s t : Compiler} (stream : t.stream = s.stream) :
    t.tokens.length = s.tokens.length := by
  have equal : t.stream.tail = s.stream.tail := by rw [stream]
  exact congrArg List.length equal

namespace Stage

variable {s t u : Compiler} {code more : Pool → List Slot}

theorem refl (ready : Ready s) (positive : 1 ≤ s.previous.line) : Stage s s fun _ => [] :=
  { toProgress := .refl ready positive, toKept := .refl s, fewer := Nat.le_refl _ }

theorem trans (first : Stage s t code) (second : Stage t u more) :
    Stage s u fun pool => code pool ++ more pool :=
  { toProgress := first.toProgress.trans second.toProgress
    toKept := first.toKept.trans second.toKept
    fewer := Nat.le_trans second.fewer first.fewer }

theorem congr (stage : Stage s t code)
    (same : ∀ pool, t.pool.Grows pool → code pool = more pool) : Stage s t more :=
  { toProgress := stage.toProgress.congr same, toKept := stage.toKept, fewer := stage.fewer }

theorem of_step (step : Progress s t code ∧ Kept s t ∧ SameInput s t) : Stage s t code :=
  { toProgress := step.1, toKept := step.2.1, fewer := Nat.le_of_eq (by rw [step.2.2.tokens]) }

theorem room (stage : Stage s t code) (room : s.draft.locals.length ≤ maxLocals) :
    t.draft.locals.length ≤ maxLocals := by
  rw [stage.locals]
  exact room

section

variable (stage : Stage s t code)

include stage

theorem emitOp (op : Operation) (plain : op.operand = .none) :
    Stage s (t.emitOp op) fun pool => code pool ++ [.fixed ⟨op, 0⟩] :=
  stage.trans (.of_step (stage.ready.emitOp_progress stage.positive plain))

theorem emitWith (op : Operation) (narrow : op.operand.width = 1) {operand : Nat}
    (named : Pool → Directive)
    (same : ∀ pool, t.pool.Grows pool → named pool = ⟨op, operand⟩ ∧
      Directive.Fits pool ⟨op, operand⟩) :
    Stage s (t.emitWith op operand.toUInt8) fun pool => code pool ++ [.fixed (named pool)] :=
  stage.trans (.of_step (stage.ready.emitWith_progress stage.positive narrow named same))

theorem emitJump (op : Operation) (jump : op.operand = .jump) :
    Stage s (t.emitJump op) fun pool => code pool ++ [.fixed ⟨op, Slot.unset⟩] :=
  stage.trans (.of_step (stage.ready.emitJump_progress stage.positive jump))

theorem emitLoop {start : Nat} (before : start ≤ t.here)
    (done : (t.emitLoop start).diagnostics = #[]) :
    Stage s (t.emitLoop start) fun pool => code pool ++ [.fixed (loopBack t.here start)] :=
  stage.trans (.of_step (stage.ready.emitLoop_progress stage.positive before done))

theorem advance (more : t.current.kind ≠ .eof) (done : t.advance.diagnostics = #[]) :
    Stage s t.advance code := by
  obtain ⟨progress, kept, -, -, shorter⟩ := stage.ready.advance_progress more done
  have passed : Stage t t.advance fun _ => [] :=
    { toProgress := progress, toKept := kept, fewer := by omega }
  exact (stage.trans passed).congr fun pool _ => List.append_nil _

theorem consume {kind : Kind} {c : Complaint} (notEnd : kind ≠ .eof)
    (done : (t.consume kind c).diagnostics = #[]) :
    Stage s (t.consume kind c) code ∧
      Reader.expect kind t.stream = some (t.consume kind c).stream ∧
      (t.consume kind c).tokens.length < t.tokens.length := by
  obtain ⟨progress, kept, -, expected, shorter⟩ := stage.ready.consume_progress notEnd done
  have passed : Stage t (t.consume kind c) fun _ => [] :=
    { toProgress := progress, toKept := kept, fewer := by omega }
  refine ⟨(stage.trans passed).congr fun pool _ => List.append_nil _, expected, by omega⟩

end

theorem patch {before after : Pool → List Slot} {op : Operation}
    (stage : Stage s t fun pool => before pool ++ .fixed ⟨op, Slot.unset⟩ :: after pool)
    (jump : op.operand = .jump)
    (rigid : ∀ pool, t.pool.Grows pool → before pool = before t.pool) {position : Nat}
    (place : position = s.here + slotsSize (before t.pool) + 1)
    (done : (t.patchJump position).diagnostics = #[]) :
    Stage s (t.patchJump position)
      fun pool => before pool ++ .fixed ⟨op, slotsSize (after pool)⟩ :: after pool := by
  obtain ⟨progress, kept, input⟩ := stage.toProgress.patch jump rigid place done
  refine { toProgress := progress, toKept := stage.toKept.trans kept, fewer := ?_ }
  rw [input.tokens]
  exact stage.fewer

theorem patchFirst {after : Pool → List Slot} {op : Operation}
    (stage : Stage s t fun pool => .fixed ⟨op, Slot.unset⟩ :: after pool)
    (jump : op.operand = .jump) (done : (t.patchJump (s.here + 1)).diagnostics = #[]) :
    Stage s (t.patchJump (s.here + 1))
      fun pool => .fixed ⟨op, slotsSize (after pool)⟩ :: after pool := by
  have whole : Stage s t fun pool => [] ++ .fixed ⟨op, Slot.unset⟩ :: after pool := stage
  exact whole.patch jump (fun _ _ => rfl) rfl done

end Stage

end Reckoner.Compiler
