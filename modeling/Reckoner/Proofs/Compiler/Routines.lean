import Reckoner.Proofs.Compiler.Clauses

/-!
Nested routines: their parameters, and what becomes of a finished draft.
-/

namespace Reckoner.Compiler

open Script

/-- From `s` to `t` the given parameters were read and nothing was written. -/
structure Lists (s t : Compiler) (names : List String) : Prop where
  ready : Ready t
  header : t.draft.routine.header = (s.draft.routine.identity, s.draft.routine.name,
    s.draft.routine.arity + names.length)
  code : t.draft.routine.code = s.draft.routine.code
  lines : t.draft.routine.lines = s.draft.routine.lines
  routines : ∀ r, .routine r ∈ t.pool → .routine r ∈ s.pool
  locals : t.draft.locals = (fresh s names).reverse ++ s.draft.locals
  room : t.draft.locals.length ≤ maxLocals
  depth : t.draft.depth = s.draft.depth
  loops : t.draft.loops = s.draft.loops
  created : t.created = s.created
  unit : t.unit = s.unit
  enclosing : t.enclosing = s.enclosing
  fewer : t.tokens.length ≤ s.tokens.length
  later : s.previous.line ≤ t.previous.line

theorem Lists.trans {s t u : Compiler} {names more : List String} (first : Lists s t names)
    (second : Lists t u more) : Lists s u (names ++ more) where
  ready := second.ready
  header := by
    have header := first.header
    simp only [Routine.header, Prod.mk.injEq] at header
    rw [second.header, header.1, header.2.1, header.2.2, List.length_append, Int.natCast_add,
      Int.add_assoc]
  code := second.code.trans first.code
  lines := second.lines.trans first.lines
  routines := fun r member => first.routines r (second.routines r member)
  locals := by
    have sameFresh : fresh t more = fresh s more := by rw [fresh, fresh, first.depth]
    rw [second.locals, first.locals, sameFresh]
    simp [fresh]
  room := second.room
  depth := second.depth.trans first.depth
  loops := second.loops.trans first.loops
  created := second.created.trans first.created
  unit := second.unit.trans first.unit
  enclosing := second.enclosing.trans first.enclosing
  fewer := Nat.le_trans second.fewer first.fewer
  later := Nat.le_trans first.later second.later

theorem Progress.silent {s t : Compiler} (p : Progress s t fun _ => []) :
    t.draft.routine.code = s.draft.routine.code ∧ t.draft.routine.lines = s.draft.routine.lines ∧
      t.draft.routine.header = s.draft.routine.header ∧ t.unit = s.unit ∧
      t.enclosing = s.enclosing ∧ s.previous.line ≤ t.previous.line := by
  obtain ⟨items, emitted, settled⟩ := p.writes
  obtain ⟨none, -⟩ := settled t.pool (.refl _)
  have empty : items = [] := List.map_eq_nil_iff.mp none
  subst empty
  have code := emitted.code
  have lines := emitted.lines
  simp only [bytesOfItems, linesOfItems, List.flatMap_nil, List.append_nil] at code lines
  exact ⟨Array.toList_inj.mp code, Array.toList_inj.mp lines, emitted.header, emitted.unit,
    emitted.enclosing, emitted.previous_le⟩

theorem Lists.of_stage {s t : Compiler} (stage : Stage s t fun _ => [])
    (room : s.draft.locals.length ≤ maxLocals) : Lists s t [] := by
  obtain ⟨code, lines, header, unit, enclosing, later⟩ := stage.toProgress.silent
  exact {
    ready := stage.ready
    header := by rw [header]; simp [Routine.header]
    code, lines, unit, enclosing, later
    routines := stage.routines
    locals := by rw [stage.locals]; rfl
    room := stage.room room
    depth := stage.depth
    loops := stage.loops
    created := stage.created
    fewer := stage.fewer }

def counted (s : Compiler) : Compiler :=
  { s with draft := { s.draft with
      routine := { s.draft.routine with arity := s.draft.routine.arity + 1 } } }

theorem addParameter_eq (s : Compiler) : s.addParameter =
    (((if (maxArguments : Int) < s.draft.routine.arity + 1 then
      s.counted.faultAhead .tooManyParameters else s.counted).parseVariable
        .expectParameterName).1).markInitialized := rfl

theorem Lists.of_counted {s t : Compiler} {name : String} (inScope : 0 < s.draft.depth)
    (room : t.draft.locals.length ≤ maxLocals)
    (marked : Advance s.counted t (declared s.draft.depth name (some s.draft.depth))
      (fun _ => []) []) : Lists s t [name] := by
  obtain ⟨code, lines, header, unit, enclosing, later⟩ := marked.toProgress.silent
  have loops := marked.loops
  rw [exitsFrom, addBreaks_nil] at loops
  have locals := marked.locals
  rw [declared, if_neg (Nat.ne_of_gt inScope)] at locals
  exact {
    ready := marked.ready
    header, code, lines, unit, enclosing, later, loops, locals, room
    routines := by
      intro r member
      rcases marked.routines r member with old | ⟨⟨g, declared, -⟩, -⟩
      · exact old
      · exact absurd declared List.not_mem_nil
    depth := marked.depth
    created := marked.still rfl
    fewer := marked.fewer }

section

variable {s : Compiler} (ready : Ready s) (positive : 1 ≤ s.previous.line)
  (inScope : 0 < s.draft.depth) (room : s.draft.locals.length ≤ maxLocals)

include ready positive inScope room

theorem Ready.addParameter (done : s.addParameter.diagnostics = #[]) :
    ∃ name, Reader.identifier s.stream = some (name, s.addParameter.stream) ∧
      Lists s s.addParameter [name] ∧ 1 ≤ s.addParameter.previous.line ∧
      s.addParameter.tokens.length < s.tokens.length := by
  rw [addParameter_eq] at done ⊢
  have cleanName := (reports_markInitialized _).clean done
  have readyCounted : Ready s.counted :=
    ⟨ready.clean, ready.audible, ready.closed, ready.ordered, ready.positive⟩
  have few : ¬ ((maxArguments : Int) < s.draft.routine.arity + 1) := by
    intro many
    rw [if_pos many] at cleanName
    exact faultAhead_diagnostics_ne readyCounted.audible _
      ((reports_parseVariable _ _).clean cleanName)
  rw [if_neg few] at cleanName done ⊢
  obtain ⟨name, read, -, shorter, roomAfter, declares, -⟩ :=
    (Advance.refl readyCounted positive).parseVariable room cleanName
  obtain ⟨marked, stream, sameRoom⟩ := declares.markInitialized
  refine ⟨name, ?_, .of_counted inScope (by rw [sameRoom]; exact roomAfter) marked,
    marked.positive, ?_⟩
  · rw [stream, ← read]
    rfl
  · rw [SameInput.of_stream stream]
    exact shorter

theorem Ready.parameters {fuel : Nat} (enough : s.tokens.length < fuel)
    (done : (parameters fuel s).diagnostics = #[]) :
    ∃ names, Reader.parameters fuel s.stream = some (names, (Compiler.parameters fuel s).stream) ∧
      Lists s (Compiler.parameters fuel s) names ∧
      1 ≤ (Compiler.parameters fuel s).previous.line := by
  induction fuel generalizing s with
  | zero => omega
  | succ fuel ih =>
      rw [Compiler.parameters] at done ⊢
      rw [Reader.parameters]
      simp only [] at done ⊢
      have clean : s.addParameter.diagnostics = #[] := by
        split at done
        · exact ((reports_advance _).trans (reports_parameters _ _)).clean done
        · exact done
      obtain ⟨name, read, lists, positiveName, shorter⟩ :=
        ready.addParameter positive inScope room clean
      generalize s.addParameter = t at *
      simp only [read, Option.bind_eq_bind, Option.bind_some, kindAt_stream, drop_stream]
      by_cases isComma : t.check .comma = true
      · rw [if_pos isComma] at done ⊢
        have more : t.current.kind ≠ .eof := by
          rw [eq_of_beq isComma]
          decide
        have cleanAdvance := (reports_parameters _ _).clean done
        obtain ⟨-, -, -, stream, fewer⟩ := lists.ready.advance_progress more cleanAdvance
        have passed := (Stage.refl lists.ready positiveName).advance more cleanAdvance
        have listed := Lists.of_stage passed lists.room
        obtain ⟨names, readNames, listsNames, positiveNames⟩ := ih passed.ready passed.positive
          (by rw [listed.depth, lists.depth]; exact inScope) listed.room (by omega) done
        refine ⟨name :: names, ?_, (lists.trans listed).trans listsNames, positiveNames⟩
        refine (if_pos isComma).trans ?_
        rw [← stream, readNames]
        rfl
      · rw [if_neg isComma] at done ⊢
        exact ⟨[name], if_neg isComma, lists, positiveName⟩

theorem Ready.parameterList {fuel : Nat} (enough : s.tokens.length < fuel)
    (done : (parameterList fuel s).diagnostics = #[]) :
    ∃ names, Reader.parameterList fuel s.stream =
        some (names, (Compiler.parameterList fuel s).stream) ∧
      Lists s (Compiler.parameterList fuel s) names ∧
      1 ≤ (Compiler.parameterList fuel s).previous.line ∧
      (Compiler.parameterList fuel s).tokens.length < s.tokens.length := by
  simp only [Compiler.parameterList] at done ⊢
  have cleanList := (reports_consume _ _ _).clean done
  have cleanOpen : (s.consume .leftParen .expectParenAfterName).diagnostics = #[] := by
    split at cleanList
    · exact cleanList
    · exact (reports_parameters _ _).clean cleanList
  obtain ⟨opened, expected, shorter⟩ := (Stage.refl ready positive).consume (by decide) cleanOpen
  have listed := Lists.of_stage opened room
  generalize s.consume .leftParen .expectParenAfterName = t at *
  obtain ⟨names, read, lists, positiveNames⟩ : ∃ names,
      (if Reader.kindAt t.stream == .rightParen then some ([], t.stream)
        else Reader.parameters fuel t.stream) =
          some (names, (if t.check .rightParen then t else Compiler.parameters fuel t).stream) ∧
      Lists t (if t.check .rightParen then t else Compiler.parameters fuel t) names ∧
      1 ≤ (if t.check .rightParen then t else Compiler.parameters fuel t).previous.line := by
    by_cases none : t.check .rightParen = true
    · rw [if_pos none]
      refine ⟨[], if_pos none, ?_, opened.positive⟩
      exact .of_stage (.refl opened.ready opened.positive) listed.room
    · rw [if_neg none] at cleanList ⊢
      obtain ⟨names, read, lists⟩ := opened.ready.parameters opened.positive
        (by rw [listed.depth]; exact inScope) listed.room (by omega) cleanList
      exact ⟨names, (if_neg none).trans read, lists⟩
  generalize (if t.check .rightParen then t else Compiler.parameters fuel t) = u at *
  obtain ⟨closed, expectedEnd, shorterEnd⟩ :=
    (Stage.refl lists.ready positiveNames).consume (by decide) done
  have fewer := lists.fewer
  refine ⟨names, ?_, ?_, closed.positive, by omega⟩
  · rw [Reader.parameterList, expected]
    simp only [Option.bind_eq_bind, Option.bind_some]
    split
    · rename_i isNone
      rw [if_pos isNone] at read
      obtain ⟨rfl, stream⟩ : [] = names ∧ t.stream = u.stream := by simpa using read
      rw [stream, expectedEnd]
      rfl
    · rename_i isSome
      rw [if_neg isSome] at read
      rw [read]
      simp only [Option.bind_some, expectedEnd]
  · have whole := (listed.trans lists).trans (Lists.of_stage closed lists.room)
    rw [List.nil_append, List.append_nil] at whole
    exact whole

end

/-! Finished drafts -/

theorem Advance.implements {s t : Compiler} {added : List Local} {code : Pool → List Slot}
    {fs : List Function} {f : Function} {isGlobal : Bool} (whole : Advance s t added code fs)
    (noCode : s.draft.routine.code = #[]) (noLines : s.draft.routine.lines = #[])
    (noRoutines : ∀ r, .routine r ∉ s.pool)
    (header : s.draft.routine.header = (⟨s.unit, f.index⟩, f.name, (f.parameters.length : Int)))
    (functions : functionsOf f.body = fs)
    (directives : f.code t.pool s.unit isGlobal = (code t.pool).map Slot.draft) :
    Implements s.unit isGlobal t.draft.routine f := by
  obtain ⟨items, emitted, settled⟩ := whole.writes
  obtain ⟨slots, fits⟩ := settled t.pool (.refl _)
  have bytes := emitted.code
  have lines := emitted.lines
  have headers := emitted.header.trans header
  simp only [Routine.header, Prod.mk.injEq] at headers
  rw [noCode] at bytes
  rw [noLines] at lines
  subst functions
  have carries : Carries s.unit isGlobal t.draft.routine f
      (items.map fun i => ⟨i.slot.draft, i.line⟩) := by
    have marks : (items.map fun i : Item => (⟨i.slot.draft, i.line⟩ : Marked)).map Marked.line =
        items.map Item.line := by
      rw [List.map_map]
      rfl
    have ordered := (List.pairwise_cons.mp emitted.ordered).2
    exact {
      identity := headers.1
      name := headers.2.1
      arity := headers.2.2
      code := by
        rw [bytes, markedBytes, List.flatMap_map]
        rfl
      lines := by
        rw [lines, markedLines, List.flatMap_map]
        rfl
      directives := by
        have same : f.code t.pool s.unit isGlobal = (slotsOfItems items).map Slot.draft := by
          rw [directives, slots]
        rw [List.map_map]
        exact (same.trans List.map_map).symm
      ordered := by
        rw [marks]
        exact (List.pairwise_append.mp ordered).1
      positive := by
        rw [marks]
        exact emitted.positive
      fits := by
        intro d member
        have inCode : d ∈ f.code t.pool s.unit isGlobal := member
        rw [directives] at inCode
        obtain ⟨slot, inSlots, rfl⟩ := List.mem_map.mp inCode
        exact (fits slot inSlots).draft }
  refine .of_linked carries (fun g declared => whole.linked t.pool (.refl _) g declared) ?_
  · intro q member
    rcases whole.routines q member with old | ⟨implemented, -⟩
    · exact absurd old (noRoutines q)
    · exact implemented

/-- From `s` to `t` the draft of a nested function was opened and completed. -/
structure Drafted (s t : Compiler) (f : Function) : Prop where
  ready : Ready t
  positive : 1 ≤ t.previous.line
  implements : Implements s.unit false t.draft.routine f
  index : f.index = s.created
  created : s.created < t.created
  unit : t.unit = s.unit
  enclosing : t.enclosing = s.draft :: s.enclosing
  fewer : t.tokens.length ≤ s.tokens.length
  later : s.previous.line ≤ t.previous.line

theorem Ready.opened {s : Compiler} (ready : Ready s) (name : String) :
    Ready (s.openRoutine name).beginScope :=
  ⟨ready.clean, ready.audible, ready.closed, ready.ordered, ready.positive⟩

theorem Lists.entered {s t : Compiler} {name : String} {names : List String}
    (lists : Lists (s.openRoutine name).beginScope t names) :
    Scoped t ∧ Deep t ∧ t.scope = names.reverse ∧ t.site = none ∧ t.here = 0 ∧
      (t.draft.depth == 0) = false := by
  have depth : t.draft.depth = 1 := lists.depth
  have loops : t.draft.loops = [] := lists.loops
  have locals : t.draft.locals = (names.map fun name => ⟨name, some 1⟩).reverse ++ [⟨"", some 0⟩] :=
    lists.locals
  have code : t.draft.routine.code = #[] := lists.code
  have shape : Scoped t := {
    nonempty := by simp [locals]
    bounded := by
      intro l member
      rw [locals] at member
      rw [depth]
      rcases List.mem_append.mp member with parameter | own
      · obtain ⟨x, -, rfl⟩ := List.mem_map.mp (List.mem_reverse.mp parameter)
        exact ⟨1, rfl, Nat.le_refl 1⟩
      · rw [List.mem_singleton.mp own]
        exact ⟨0, rfl, Nat.zero_le 1⟩
    room := lists.room
    numbered := fun r member => absurd (lists.routines r member) (Array.not_mem_empty _)
    behind := by simp [loops]
    inside := by simp [loops] }
  refine ⟨shape, by simp [Deep, loops], ?_, by simp [site, loops], by simp [here, code],
    by rw [depth]; rfl⟩
  rw [shape.scope_eq, locals, List.dropLast_concat, List.map_reverse, List.map_map]
  congr 1
  exact List.map_id names

theorem Lists.drafted {s t u : Compiler} {name : String} {names : List String}
    (lists : Lists (s.openRoutine name).beginScope t names) {f : Function} {added : List Local}
    {code : Pool → List Slot} {fs : List Function} (whole : Advance t u added code fs)
    (index : f.index = s.created) (named : f.name = name) (parameters : f.parameters = names)
    (functions : functionsOf f.body = fs)
    (directives : f.code u.pool t.unit false = (code u.pool).map Slot.draft) :
    Drafted s u f where
  ready := whole.ready
  positive := whole.positive
  implements := by
    have unit : t.unit = s.unit := lists.unit
    have noCode : t.draft.routine.code = #[] := lists.code
    have noLines : t.draft.routine.lines = #[] := lists.lines
    have noRoutines : ∀ r, .routine r ∉ t.pool :=
      fun r member => absurd (lists.routines r member) (Array.not_mem_empty _)
    have header : t.draft.routine.header = (⟨t.unit, f.index⟩, f.name, (f.parameters.length : Int)) := by
      rw [lists.header, index, named, parameters, unit]
      simp [openRoutine, beginScope, Draft.start, Routine.empty]
    have implements := whole.implements noCode noLines noRoutines header functions directives
    rwa [unit] at implements
  index := index
  created := Nat.lt_of_lt_of_le (by rw [lists.created]; exact Nat.lt_succ_self _) whole.created
  unit := whole.unit_eq.trans lists.unit
  enclosing := whole.enclosing_eq.trans lists.enclosing
  fewer := Nat.le_trans whole.fewer lists.fewer
  later := by
    obtain ⟨items, emitted, -⟩ := whole.writes
    exact Nat.le_trans lists.later emitted.previous_le

def resumed (t s : Compiler) : Compiler := { t with draft := s.draft, enclosing := s.enclosing }

namespace Drafted

variable {s t : Compiler} {f : Function} (drafted : Drafted s t f)

include drafted

theorem closeRoutine_eq :
    t.closeRoutine = (t.resumed s).emitConstant (.routine t.draft.routine) := by
  rw [Compiler.closeRoutine, drafted.enclosing]
  rfl

theorem resumed_progress : Progress s (t.resumed s) fun _ => [] := by
  refine ⟨?_, drafted.positive, .of_emits (.quiet rfl drafted.later drafted.unit rfl)⟩
  exact ⟨drafted.ready.clean, drafted.ready.audible, drafted.ready.closed, drafted.ready.ordered,
    drafted.ready.positive⟩

theorem identity : t.draft.routine.identity = ⟨s.unit, f.index⟩ := by
  obtain ⟨marked, carries⟩ := drafted.implements.carries
  exact carries.identity

section

variable {pool : Pool} (bound : pool.find (.routine t.draft.routine) < pool.size)

include bound

theorem entry (shape : Scoped s)
    (source : pool = s.pool ∨ pool = s.pool.push (.routine t.draft.routine)) :
    pool[pool.findRoutine ⟨s.unit, f.index⟩]? = some (.routine t.draft.routine) := by
  rw [Pool.find_routine, drafted.identity] at bound
  obtain ⟨q, stored, same⟩ := Pool.findRoutine_entry bound
  rw [stored]
  have member : .routine q ∈ pool := Array.mem_of_getElem? stored
  have fresh : .routine q ∉ s.pool := by
    intro old
    have numbered := shape.numbered q old
    rw [same, drafted.index] at numbered
    exact Nat.lt_irrefl _ numbered
  rcases source with old | pushed
  · rw [old] at member
    exact absurd member fresh
  · rw [pushed, Array.mem_push] at member
    rcases member with old | new
    · exact absurd old fresh
    · rw [new]

theorem findRoutine_later {later : Pool} (grown : pool.Grows later) :
    later.findRoutine ⟨s.unit, f.index⟩ = pool.find (.routine t.draft.routine) := by
  rw [Pool.find_routine, drafted.identity] at bound ⊢
  exact grown.findRoutine_eq bound

theorem linked (shape : Scoped s)
    (source : pool = s.pool ∨ pool = s.pool.push (.routine t.draft.routine)) {later : Pool}
    (grown : pool.Grows later) : Linked s.unit later f := by
  refine ⟨t.draft.routine, ?_, drafted.implements⟩
  rw [drafted.findRoutine_later bound grown, grown.getElem? bound]
  have entry := drafted.entry bound shape source
  rwa [drafted.findRoutine_later bound (.refl _)] at entry

end

theorem closeRoutine (shape : Scoped s) (done : t.closeRoutine.diagnostics = #[]) :
    Advance s t.closeRoutine []
        (fun pool => fixedSlots [⟨.constant, pool.findRoutine ⟨s.unit, f.index⟩⟩]) [f] ∧
      t.closeRoutine.stream = t.stream ∧ t.closeRoutine.created = t.created := by
  rw [drafted.closeRoutine_eq] at done ⊢
  have opened := drafted.resumed_progress
  have clean : ((t.resumed s).constant (.routine t.draft.routine)).1.diagnostics = #[] := done
  obtain ⟨pool, equal, bound, byte, source⟩ := constant_eq opened.ready.audible (by simp) clean
  have source : pool = s.pool ∨ pool = s.pool.push (.routine t.draft.routine) := source
  have grown : (t.resumed s).pool.Grows pool := by
    rcases source with same | pushed
    · rw [same]
      exact .refl _
    · rw [pushed]
      exact .push _ _
  have stored : Progress (t.resumed s) ((t.resumed s).withPool pool) fun _ => [] :=
    ⟨⟨opened.ready.clean, opened.ready.audible, opened.ready.closed, opened.ready.ordered,
      opened.ready.positive⟩, opened.positive, .of_emits (emits_withPool _ grown)⟩
  obtain ⟨emitted, kept, input⟩ := stored.ready.emitWith_progress stored.positive
    (show Operation.constant.operand.width = 1 from rfl)
    (fun later => ⟨.constant, later.findRoutine ⟨s.unit, f.index⟩⟩) fun later more => by
      rw [drafted.findRoutine_later bound more]
      exact ⟨rfl, byte, fun _ => Nat.lt_of_lt_of_le bound more.size_le⟩
  rw [emitConstant, equal]
  refine ⟨{ toProgress := (opened.trans stored).trans emitted
            created := Nat.le_of_lt drafted.created
            still := by simp
            routines := ?_
            linked := ?_
            fewer := ?_
            locals := kept.locals
            depth := kept.depth
            loops := ?_ }, input.stream, rfl⟩
  · intro q member
    have inPool : .routine q ∈ pool := member
    rcases source with old | pushed
    · rw [old] at inPool
      exact .inl inPool
    · rw [pushed, Array.mem_push] at inPool
      rcases inPool with old | new
      · exact .inl old
      · cases new
        refine .inr ⟨⟨f, List.mem_singleton_self f, drafted.implements⟩, ?_⟩
        rw [drafted.identity, drafted.index]
        exact drafted.created
  · intro later more g declared
    rw [List.mem_singleton.mp declared]
    exact drafted.linked bound shape source more
  · rw [input.tokens]
    exact drafted.fewer
  · rw [kept.loops, exitsFrom_fixedSlots, addBreaks_nil]
    rfl

end Drafted

end Reckoner.Compiler
