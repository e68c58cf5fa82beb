import Reckoner.Proofs.Compiler.Statement
import Reckoner.Proofs.Token.Scan
import Reckoner.Compiler.Basic

/-!
Whole sources. Every source that is accepted has a tree, and the routine it is compiled to is the
image of that tree.
-/

namespace Reckoner.Compiler

open Script

theorem Ready.finished {s : Compiler} (ready : Ready s) (ended : s.current.kind = .eof) :
    Advance s s.advance [] (fun _ => []) [] := by
  rw [ready.advance_end ended]
  have readyEnd : Ready { s with previous := s.current } := {
    clean := ready.clean
    audible := ready.audible
    closed := ready.closed
    ordered := by
      have ordered := ready.ordered
      rw [stream, List.map_cons] at ordered
      have tail := (List.pairwise_cons.mp ordered).2
      refine List.pairwise_cons.mpr ⟨?_, tail⟩
      intro line member
      rcases List.mem_cons.mp member with this | later
      · exact Nat.le_of_eq this.symm
      · exact (List.pairwise_cons.mp tail).1 line later
    positive := ready.positive }
  have stage : Stage s { s with previous := s.current } fun _ => fixedSlots [] := {
    ready := readyEnd
    positive := ready.current_pos
    writes := .of_emits (.quiet rfl ready.previous_le rfl rfl)
    locals := rfl
    depth := rfl
    loops := rfl
    created := rfl
    routines := fun _ member => member
    fewer := Nat.le_refl _ }
  exact .of_stage stage

theorem Ready.declarations {fuel : Nat} {s : Compiler} (ready : Ready s) (shape : Scoped s)
    (deep : Deep s) (enough : 16 * s.tokens.length + 10 ≤ fuel)
    (done : (declarations fuel s).diagnostics = #[]) :
    ∃ body, Reader.declarations fuel s.created s.stream = some body ∧
      Advance s (Compiler.declarations fuel s) (fresh s (namesOf (s.draft.depth == 0) body))
        (fun pool => codeOfBody pool s.unit (s.draft.depth == 0) s.scope s.site s.here body)
        (functionsOf body) := by
  induction fuel generalizing s with
  | zero => omega
  | succ fuel ih =>
      rw [Compiler.declarations] at done ⊢
      rw [Reader.declarations, kindAt_stream]
      by_cases ended : s.check .eof = true
      · rw [if_pos ended]
        refine ⟨[], if_pos ended, (ready.finished (eq_of_beq ended)).congr fun pool _ => ?_⟩
        rw [codeOfBody]
      · rw [if_neg ended] at done ⊢
        have clean := (reports_declarations _ _).clean done
        obtain ⟨d, read, declares⟩ := (statementReads fuel).declaration ready shape (by omega) clean
        have shorter := declares.shorter
        obtain ⟨body, readBody, advance⟩ := ih declares.ready (declares.shape shape)
          (deep.of_advance declares.toAdvance) (by omega) done
        refine ⟨d :: body, ?_, ?_⟩
        · refine (if_neg ended).trans ?_
          rw [read]
          simp only [Option.bind_eq_bind, Option.bind_some, readBody]
        · have whole := declares.toAdvance.trans advance
          have sameFresh : ∀ names, fresh (Compiler.declaration fuel s) names = fresh s names := by
            intro names
            rw [fresh, fresh, declares.depth]
          rw [sameFresh, declares.depth] at whole
          rw [namesOf, functionsOf, fresh, List.map_append]
          refine whole.congr fun pool grown => ?_
          have here := declares.writes.here_eq (advance.writes.grown.trans grown)
          rw [codeOfBody, declares.unit_eq, declares.scope_eq shape,
            declares.site_eq shape (.inl deep), here]

/-- What holds when the first token of a source has been fetched. -/
structure Started (unit : Nat) (tokens : List Token) (s : Compiler) : Prop where
  ready : Ready s
  shape : Scoped s
  deep : Deep s
  stream : s.stream = tokens
  draft : s.draft = Draft.start { unit, index := 0 } ""
  unit : s.unit = unit
  created : s.created = 1
  enclosing : s.enclosing = []

theorem started (unit : Nat) {tokens : List Token} (closed : Closed tokens)
    (ordered : (1 :: tokens.map Token.line).Pairwise (· ≤ ·))
    (done : (start unit tokens).advance.diagnostics = #[]) :
    Started unit tokens (start unit tokens).advance := by
  cases tokens with
  | nil => exact closed.elim
  | cons t rest =>
      have fetched : (start unit (t :: rest)).advance =
          { start unit (t :: rest) with tokens := rest, current := t } := fetch_cons rfl done
      rw [fetched]
      exact {
        ready := {
          clean := rfl
          audible := rfl
          closed := closed
          ordered := List.pairwise_cons.mpr ⟨fun _ _ => Nat.zero_le _,
            (List.pairwise_cons.mp ordered).2⟩
          positive := fun u member => (List.pairwise_cons.mp ordered).1 _
            (List.mem_map_of_mem member) }
        shape := {
          nonempty := by simp [start, Draft.start]
          bounded := by simp [start, Draft.start]
          room := by simp [start, Draft.start, maxLocals]
          numbered := fun r member => absurd member (Array.not_mem_empty _)
          behind := by simp [start, Draft.start]
          inside := by simp [start, Draft.start] }
        deep := by simp [Deep, start, Draft.start]
        stream := rfl
        draft := rfl
        unit := rfl
        created := rfl
        enclosing := rfl }

theorem finish_ok {s : Compiler} {r : Routine} (accepted : s.finish = .ok r) :
    s.diagnostics = #[] ∧ s.draft.routine = r := by
  rw [finish] at accepted
  split at accepted
  · rename_i none
    exact ⟨by simpa using none, Except.ok.inj accepted⟩
  · exact absurd accepted (by simp)

theorem Started.implements {unit : Nat} {tokens : List Token} {s t : Compiler}
    (started : Started unit tokens s) {added : List Local} {code : Pool → List Slot}
    {fs : List Function} (whole : Advance s t added code fs) {body : List Declaration}
    {result : Option Expression} (functions : functionsOf body = fs)
    (directives : Function.code ⟨0, "", [], body, result⟩ t.pool unit true =
      (code t.pool).map Slot.draft) :
    Implements unit true t.draft.routine ⟨0, "", [], body, result⟩ := by
  have unitEq := started.unit
  have draft := started.draft
  have noRoutines : ∀ r, .routine r ∉ s.pool := by
    intro r
    rw [pool, draft]
    exact Array.not_mem_empty _
  have implements : Implements s.unit true t.draft.routine ⟨0, "", [], body, result⟩ :=
    whole.implements (by rw [draft]; rfl) (by rw [draft]; rfl) noRoutines
      (by rw [draft, unitEq]; rfl) functions (by rw [unitEq]; exact directives)
  rwa [unitEq] at implements

theorem script_implements {unit : Nat} {source : List UInt8} {r : Routine}
    (accepted : compileBytes unit source = .ok r) :
    ∃ f, scriptTree? source = some f ∧ Implements unit true r f := by
  obtain ⟨closed, ordered⟩ := scan_spec source
  rw [compileBytes, script] at accepted
  obtain ⟨done, rfl⟩ := finish_ok accepted
  have clean := (((Reports.refl _).emitOp .false).emitOp .return).clean done
  have started := started unit closed ordered ((reports_declarations _ _).clean clean)
  generalize (start unit (scan source)).advance = s at *
  have fewer : s.tokens.length + 1 = (scan source).length := by
    rw [← started.stream]
    rfl
  obtain ⟨body, read, advance⟩ := started.ready.declarations started.shape started.deep
    (by rw [fuelFor]; omega) clean
  have whole := (advance.emitOp .false rfl).emitOp .return rfl
  rw [started.created, started.stream] at read
  refine ⟨scriptOf body, ?_, started.implements whole rfl ?_⟩
  · rw [scriptTree?, read]
    rfl
  · rw [Function.code, List.map_append, List.map_append]
    simp only [map_draft_fixedSlots, started.unit]
    rw [scope, site, here, started.draft]
    rfl

theorem expression_implements {unit : Nat} {source : List UInt8} {r : Routine}
    (accepted : compileExpressionBytes unit source = .ok r) :
    ∃ f, expressionTree? source = some f ∧ Implements unit true r f := by
  obtain ⟨closed, ordered⟩ := scan_spec source
  rw [compileExpressionBytes, singleExpression] at accepted
  obtain ⟨done, rfl⟩ := finish_ok accepted
  have cleanEnd := ((Reports.refl _).emitOp .return).clean done
  have clean := (reports_consume _ _ _).clean cleanEnd
  have started := started unit closed ordered ((reports_expression _ _).clean clean)
  generalize (start unit (scan source)).advance = s at *
  have fewer : s.tokens.length + 1 = (scan source).length := by
    rw [← started.stream]
    rfl
  obtain ⟨e, read, stage⟩ := (expressionReads (fuelFor (scan source))).expression started.ready
    started.shape.room (by rw [fuelFor]; omega) clean
  generalize Compiler.expression (fuelFor (scan source)) s = t at *
  obtain ⟨ended, consumed⟩ := stage.ready.consume_eq cleanEnd
  rw [consumed]
  have whole := ((Advance.of_stage stage).trans (stage.ready.finished ended)).emitOp .return rfl
  rw [started.stream] at read
  refine ⟨expressionOf e, ?_, started.implements whole rfl ?_⟩
  · rw [expressionTree?, Reader.singleExpression, read]
    simp only [Option.bind_eq_bind, Option.bind_some, kindAt_stream]
    exact congrArg (Option.map expressionOf) (if_pos (by rw [ended]; rfl))
  · rw [Function.code, codeOfBody, List.append_nil, List.map_append]
    simp only [map_draft_fixedSlots]
    rw [scope, started.draft]
    rfl

theorem fuelFor_enough (source : List UInt8) :
    16 * (scan source).length + 10 ≤ fuelFor (scan source) := by
  rw [fuelFor]
  omega

end Reckoner.Compiler
