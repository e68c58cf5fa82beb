import Reckoner.Proofs.Compiler.Guarded
import Reckoner.Proofs.Token.Scan

/-!
Every source has an outcome. Whatever has been reported, the compiler reads no rule and no table that
is not there, every declaration passes a token, and each declaration ends one silence at most.
-/

namespace Reckoner

namespace Compiler

/-- Slot zero is there and outlives every scope, and breaks wait inside the code. -/
structure Sound (s : Compiler) : Prop where
  closed : Closed s.stream
  bottom : s.draft.locals.getLast? = some { name := "", depth := some 0 }
  breaks : ∀ loop ∈ s.draft.loops, ∀ position ∈ loop.breaks, position + 1 < s.here

/-- Declarations were made with ever fewer tokens ahead. -/
structure Descends (high : Nat) (calls : List Nat) (low : Nat) : Prop where
  le : low ≤ high
  pairwise : calls.Pairwise (· > ·)
  bounds : ∀ ahead ∈ calls, low < ahead ∧ ahead ≤ high

theorem Descends.trans {high middle low : Nat} {calls more : List Nat}
    (first : Descends high calls middle) (second : Descends middle more low) :
    Descends high (calls ++ more) low := by
  refine ⟨Nat.le_trans second.le first.le, ?_, ?_⟩
  · refine List.pairwise_append.mpr ⟨first.pairwise, second.pairwise, ?_⟩
    intro a before b after
    exact Nat.lt_of_le_of_lt (second.bounds b after).2 (first.bounds a before).1
  · intro ahead member
    have upper := first.le
    have lower := second.le
    rcases List.mem_append.mp member with before | after
    · have := first.bounds ahead before
      omega
    · have := second.bounds ahead after
      omega

theorem Descends.length_le {high low : Nat} {calls : List Nat} (descends : Descends high calls low) :
    calls.length + low ≤ high := by
  induction calls generalizing high with
  | nil => simpa using descends.le
  | cons ahead rest ih =>
      obtain ⟨higher, pairwise⟩ := List.pairwise_cons.mp descends.pairwise
      have bound := descends.bounds ahead List.mem_cons_self
      have shorter : Descends (ahead - 1) rest low := by
        refine ⟨by omega, pairwise, ?_⟩
        intro other member
        have := higher other member
        have := descends.bounds other (List.mem_cons_of_mem _ member)
        omega
      have := ih shorter
      rw [List.length_cons]
      omega

structure Follows (s t : Compiler) (calls : List Nat) : Prop where
  sound : t.Sound
  here : s.here ≤ t.here
  depth : t.draft.depth = s.draft.depth
  loops : t.draft.loops.length = s.draft.loops.length
  enclosing : t.enclosing = s.enclosing
  descends : Descends s.tokens.length calls t.tokens.length
  credit : t.credit ≤ s.credit + calls.length

section

variable {s t u : Compiler} {calls more : List Nat}

theorem Keeps.sound (kept : Keeps s t) (sound : s.Sound) : t.Sound where
  closed := kept.closed sound.closed
  bottom := by rw [kept.locals]; exact sound.bottom
  breaks := by
    rw [kept.loops]
    intro loop member position listed
    exact Nat.lt_of_lt_of_le (sound.breaks loop member position listed) kept.here

theorem Keeps.follows (kept : Keeps s t) (sound : s.Sound) : Follows s t [] where
  sound := kept.sound sound
  here := kept.here
  depth := kept.depth
  loops := by rw [kept.loops]
  enclosing := kept.enclosing
  descends := ⟨kept.tokens, .nil, nofun⟩
  credit := kept.credit

theorem Follows.trans (first : Follows s t calls) (second : Follows t u more) :
    Follows s u (calls ++ more) where
  sound := second.sound
  here := Nat.le_trans first.here second.here
  depth := second.depth.trans first.depth
  loops := second.loops.trans first.loops
  enclosing := second.enclosing.trans first.enclosing
  descends := first.descends.trans second.descends
  credit := by
    have := first.credit
    have := second.credit
    rw [List.length_append]
    omega

theorem Follows.keeps (first : Follows s t calls) (kept : Keeps t u) : Follows s u calls := by
  have both := first.trans (kept.follows first.sound)
  rwa [List.append_nil] at both

theorem Keeps.before (kept : Keeps s t) (sound : s.Sound) (second : Follows t u calls) :
    Follows s u calls := (kept.follows sound).trans second

theorem getLast?_dropWhile {α : Type} {p : α → Bool} {l : List α} {x : α}
    (last : l.getLast? = some x) (stays : p x = false) : (l.dropWhile p).getLast? = some x := by
  induction l with
  | nil => exact absurd last nofun
  | cons y rest ih =>
      rw [List.dropWhile_cons]
      split
      · rename_i drops
        cases rest with
        | nil =>
            rw [List.getLast?_singleton] at last
            rw [Option.some.inj last, stays] at drops
            exact absurd drops nofun
        | cons z rest => exact ih (by rwa [List.getLast?_cons_cons] at last)
      · exact last

theorem Follows.endScope (inner : Follows s.beginScope t calls) :
    Guarded.endScope t = some t.endScope ∧ Follows s t.endScope calls := by
  have deeper : t.draft.depth = s.draft.depth + 1 := inner.depth
  have left : Follows s { t with draft := { t.draft with
      depth := t.draft.depth - 1
      locals := t.draft.locals.dropWhile (Local.isDeeper (t.draft.depth - 1)) } } calls := by
    refine { inner with sound := ⟨inner.sound.closed, ?_, inner.sound.breaks⟩, depth := ?_ }
    · exact getLast?_dropWhile inner.sound.bottom (by simp [Local.isDeeper])
    · show t.draft.depth - 1 = s.draft.depth
      omega
  refine ⟨if_neg (by omega), ?_⟩
  exact left.keeps (keeps_emitPops _ _)

theorem patchAll_eq {positions : List Nat} (inside : ∀ position ∈ positions, position + 1 < s.here) :
    Guarded.patchAll positions s = some (positions.foldl patchJump s) ∧
      Keeps s (positions.foldl patchJump s) := by
  induction positions generalizing s with
  | nil => exact ⟨rfl, .refl s⟩
  | cons position rest ih =>
      have patched := keeps_patchJump s position
      obtain ⟨given, kept⟩ := ih fun other member =>
        Nat.lt_of_lt_of_le (inside other (List.mem_cons_of_mem _ member)) patched.here
      rw [Guarded.patchAll, Guarded.patchJump_eq (inside position List.mem_cons_self)]
      exact ⟨given, patched.trans kept⟩

theorem Follows.popLoop {start : Nat} (inner : Follows (s.pushLoop start) t calls) :
    Guarded.popLoop t = some t.popLoop ∧ Follows s t.popLoop calls := by
  have count : t.draft.loops.length = s.draft.loops.length + 1 := inner.loops
  rw [Guarded.popLoop, Compiler.popLoop]
  cases loops : t.draft.loops with
  | nil =>
      rw [loops] at count
      exact absurd count nofun
  | cons loop rest =>
      rw [loops] at count
      have breaks := inner.sound.breaks
      rw [loops] at breaks
      have left : Follows s { t with draft := { t.draft with loops := rest } } calls :=
        { inner with
          sound := ⟨inner.sound.closed, inner.sound.bottom,
            fun other member => breaks other (List.mem_cons_of_mem _ member)⟩
          loops := Nat.succ.inj count }
      obtain ⟨given, kept⟩ := patchAll_eq (s := { t with draft := { t.draft with loops := rest } })
        (breaks loop List.mem_cons_self)
      exact ⟨given, left.keeps kept⟩

theorem Sound.pushLoop (sound : s.Sound) (start : Nat) : (s.pushLoop start).Sound := by
  refine ⟨sound.closed, sound.bottom, ?_⟩
  intro loop member
  rcases List.mem_cons.mp member with rfl | outer
  · exact nofun
  · exact sound.breaks loop outer

def Named (s : Compiler) : Prop := s.draft.depth ≠ 0 → 2 ≤ s.draft.locals.length

theorem Keeps.named (kept : Keeps s t) (named : s.Named) : t.Named := by
  rw [Named, kept.depth, kept.locals]
  exact named

theorem Sound.markInitialized (sound : s.Sound) (named : s.Named) :
    Guarded.markInitialized s = some s.markInitialized ∧ Follows s s.markInitialized [] ∧
      s.markInitialized.Named := by
  by_cases outside : s.draft.depth = 0
  · rw [Guarded.markInitialized, Compiler.markInitialized, if_neg (by simp [outside]), if_pos outside]
    exact ⟨rfl, (Keeps.refl s).follows sound, named⟩
  · have many := named outside
    rw [Guarded.markInitialized, Compiler.markInitialized, if_neg outside]
    cases locals : s.draft.locals with
    | nil =>
        rw [locals] at many
        exact absurd many (by simp)
    | cons l rest =>
        rw [locals] at many
        have bottom := sound.bottom
        rw [locals] at bottom
        cases rest with
        | nil => exact absurd many (by simp)
        | cons m rest =>
            refine ⟨if_neg (by simp), ?_, fun _ => many⟩
            exact { (Keeps.refl s).follows sound with
              sound := ⟨sound.closed, by rwa [List.getLast?_cons_cons] at bottom ⊢, sound.breaks⟩ }

theorem Sound.declareVariable (sound : s.Sound) :
    Follows s s.declareVariable [] ∧ s.declareVariable.Named := by
  rw [Compiler.declareVariable]
  split
  · rename_i outside
    exact ⟨(Keeps.refl s).follows sound, fun inside => absurd outside inside⟩
  · have warned : Keeps s (if (s.draft.locals.takeWhile (Local.isInScope s.draft.depth)).any
        (·.name == s.previous.lexeme) then s.fault .redeclared else s) := by
      split
      · exact keeps_fault s _
      · exact .refl s
    dsimp only
    generalize (if (s.draft.locals.takeWhile (Local.isInScope s.draft.depth)).any
      (·.name == s.previous.lexeme) then s.fault .redeclared else s) = t at warned ⊢
    have sound := warned.sound sound
    rw [addLocal]
    split
    · rename_i full
      have refused := keeps_fault t .tooManyLocals
      refine ⟨(warned.trans refused).follows ‹_›, fun _ => ?_⟩
      rw [refused.locals, full]
      decide
    · have bottom := sound.bottom
      refine ⟨{ warned.follows ‹_› with sound := ⟨sound.closed, ?_, sound.breaks⟩ }, fun _ => ?_⟩
      · show (_ :: t.draft.locals).getLast? = _
        cases locals : t.draft.locals with
        | nil =>
            rw [locals] at bottom
            cases bottom
        | cons l rest =>
            rw [locals] at bottom
            rw [List.getLast?_cons_cons]
            exact bottom
      · show 2 ≤ (_ :: t.draft.locals).length
        cases locals : t.draft.locals with
        | nil =>
            rw [locals] at bottom
            cases bottom
        | cons l rest => simp

theorem Sound.parseVariable (sound : s.Sound) (c : Complaint) :
    Follows s (s.parseVariable c).1 [] ∧ (s.parseVariable c).1.Named := by
  have consumed := keeps_consume s .identifier c
  obtain ⟨declared, named⟩ := (consumed.sound sound).declareVariable
  have follows := consumed.before sound declared
  simp only [Compiler.parseVariable]
  split
  · exact ⟨follows, named⟩
  · have stored := keeps_constant (s.consume .identifier c).declareVariable
      (.text (s.consume .identifier c).declareVariable.previous.lexeme)
    exact ⟨follows.keeps stored, stored.named named⟩

theorem Sound.defineVariable (sound : s.Sound) (named : s.Named) (global : UInt8) :
    Guarded.defineVariable s global = some (s.defineVariable global) ∧
      Follows s (s.defineVariable global) [] := by
  rw [Guarded.defineVariable, Compiler.defineVariable]
  split
  · obtain ⟨given, follows, -⟩ := sound.markInitialized named
    exact ⟨given, follows⟩
  · exact ⟨rfl, (keeps_emitWith _ _ _).follows sound⟩

theorem skipToStatement_eq {fuel : Nat} (closed : Closed s.stream) (enough : s.tokens.length < fuel) :
    Guarded.skipToStatement fuel s = some (skipToStatement fuel s) ∧
      Keeps s (skipToStatement fuel s) := by
  induction fuel generalizing s with
  | zero => exact absurd enough (Nat.not_lt_zero _)
  | succ fuel ih =>
      rw [Guarded.skipToStatement, Compiler.skipToStatement]
      split
      · exact ⟨rfl, .refl s⟩
      · rename_i stops
        have more : s.current.kind ≠ .eof := by
          intro ended
          rw [check, ended] at stops
          exact stops rfl
        have advanced := keeps_advance s
        have shorter := advance_shorter closed more
        obtain ⟨given, kept⟩ := ih (advanced.closed closed) (by omega)
        exact ⟨given, advanced.trans kept⟩

theorem Follows.recover (inner : Follows s t calls)
    (below : ∀ ahead ∈ calls, ahead < s.tokens.length) (shorter : t.tokens.length < s.tokens.length) :
    Guarded.recover t = some t.recover ∧ Follows s t.recover (s.tokens.length :: calls) ∧
      t.recover.tokens.length < s.tokens.length := by
  have descends : ∀ low ≤ t.tokens.length,
      Descends s.tokens.length (s.tokens.length :: calls) low := by
    intro low bound
    refine ⟨by omega, List.pairwise_cons.mpr ⟨below, inner.descends.pairwise⟩, ?_⟩
    intro ahead member
    rcases List.mem_cons.mp member with rfl | nested
    · omega
    · have := inner.descends.bounds ahead nested
      omega
  have credit := inner.credit
  rw [Guarded.recover, Compiler.recover]
  split
  · rename_i silent
    obtain ⟨given, kept⟩ := skipToStatement_eq (s := { t with silent := false })
      inner.sound.closed (Nat.lt_succ_self _)
    have fewer := kept.tokens
    refine ⟨given, ?_, Nat.lt_of_le_of_lt fewer shorter⟩
    exact {
      sound := kept.sound ⟨inner.sound.closed, inner.sound.bottom, inner.sound.breaks⟩
      here := Nat.le_trans inner.here kept.here
      depth := kept.depth.trans inner.depth
      loops := (congrArg List.length kept.loops).trans inner.loops
      enclosing := kept.enclosing.trans inner.enclosing
      descends := descends _ fewer
      credit := by
        have broken : { t with silent := false }.credit = t.credit + 1 := by
          simp [Compiler.credit, silent]
        refine Nat.le_trans kept.credit ?_
        rw [broken, List.length_cons]
        omega }
  · refine ⟨rfl, ?_, shorter⟩
    exact { inner with
      descends := descends _ (Nat.le_refl _)
      credit := by rw [List.length_cons]; omega }

/-! Statements without statements in them -/

/-- The guarded function gives what the function gives, and the declarations on the way. -/
def Runs (s : Compiler) (guarded : Option (Compiler × List Nat)) (t : Compiler) : Prop :=
  ∃ calls, guarded = some (t, calls) ∧ Follows s t calls

def Passes (s : Compiler) (guarded : Option Compiler) (t : Compiler) : Prop :=
  guarded = some t ∧ Follows s t []

theorem Passes.runs {guarded : Option Compiler} (passes : Passes s guarded t) :
    Runs s (guarded.map fun s => (s, [])) t := by
  obtain ⟨given, follows⟩ := passes
  exact ⟨[], by rw [given]; rfl, follows⟩

section

variable (fuel : Nat) (sound : s.Sound) (enough : 16 * s.tokens.length + 2 ≤ fuel)

include sound enough

theorem expressionStatement_passes :
    Passes s (Guarded.expressionStatement fuel s) (expressionStatement fuel s) ∧
      (s.current.kind ≠ .eof →
        (expressionStatement fuel s).tokens.length < s.tokens.length) := by
  obtain ⟨⟨given, kept⟩, shorter⟩ := (expressionTotal fuel).expression s sound.closed enough
  have consumed := keeps_consume (expression fuel s) .semicolon .expectSemicolonAfterExpression
  rw [Guarded.expressionStatement, given]
  refine ⟨⟨rfl, (kept.trans (consumed.trans (keeps_emitOp _ _))).follows sound⟩, fun more => ?_⟩
  exact Nat.lt_of_le_of_lt consumed.tokens (shorter more)

theorem printStatement_passes :
    Passes s (Guarded.printStatement fuel s) (printStatement fuel s) := by
  obtain ⟨⟨given, kept⟩, -⟩ := (expressionTotal fuel).expression s sound.closed enough
  rw [Guarded.printStatement, given]
  exact ⟨rfl, (kept.trans ((keeps_consume _ _ _).trans (keeps_emitOp _ _))).follows sound⟩

theorem returnStatement_passes :
    Passes s (Guarded.returnStatement fuel s) (returnStatement fuel s) := by
  have warned : Keeps s (if s.enclosing.isEmpty then s.fault .returnOutsideFunction else s) := by
    split
    · exact keeps_fault s _
    · exact .refl s
  rw [Guarded.returnStatement, Compiler.returnStatement]
  generalize (if s.enclosing.isEmpty then s.fault .returnOutsideFunction else s) = t at warned ⊢
  split
  · exact ⟨rfl, (warned.trans ((keeps_advance _).trans (keeps_emitFalseReturn _))).follows sound⟩
  · have fewer := warned.tokens
    obtain ⟨⟨given, kept⟩, -⟩ := (expressionTotal fuel).expression t (warned.closed sound.closed)
      (by omega)
    rw [given]
    exact ⟨rfl, (warned.trans (kept.trans ((keeps_consume _ _ _).trans (keeps_emitOp _ _)))).follows sound⟩

theorem varDeclaration_passes :
    Passes s (Guarded.varDeclaration fuel s) (varDeclaration fuel s) := by
  obtain ⟨parsed, named⟩ := sound.parseVariable .expectVariableName
  have fewer := parsed.descends.le
  rw [Guarded.varDeclaration, Compiler.varDeclaration]
  generalize s.parseVariable .expectVariableName = declared at parsed named fewer ⊢
  obtain ⟨t, global⟩ := declared
  dsimp only at parsed named fewer ⊢
  have defines : ∀ u, Keeps t u →
      Passes s (Guarded.defineVariable (u.consume .semicolon .expectSemicolonAfterVariable) global)
        ((u.consume .semicolon .expectSemicolonAfterVariable).defineVariable global) := by
    intro u kept
    have kept := kept.trans (keeps_consume u .semicolon .expectSemicolonAfterVariable)
    obtain ⟨defined, follows⟩ := (kept.sound parsed.sound).defineVariable (kept.named named) global
    exact ⟨defined, (parsed.keeps kept).trans follows⟩
  split
  · have advanced := keeps_advance t
    have fewerToo := advanced.tokens
    obtain ⟨⟨given, kept⟩, -⟩ := (expressionTotal fuel).expression t.advance
      (advanced.closed parsed.sound.closed) (by omega)
    rw [given]
    exact defines _ (advanced.trans kept)
  · exact defines _ (keeps_emitOp t _)

theorem forInitializer_passes :
    Passes s (Guarded.forInitializer fuel s) (forInitializer fuel s) := by
  have advanced := keeps_advance s
  have fewer := advanced.tokens
  rw [Guarded.forInitializer, Compiler.forInitializer]
  split
  · exact ⟨rfl, advanced.follows sound⟩
  · split
    · obtain ⟨given, follows⟩ := varDeclaration_passes fuel (advanced.sound sound) (by omega)
      exact ⟨given, advanced.before sound follows⟩
    · exact (expressionStatement_passes fuel sound enough).1

theorem forCondition_passes :
    Guarded.forCondition fuel s = some (forCondition fuel s) ∧
      Follows s (forCondition fuel s).1 [] ∧
      ∀ position ∈ (forCondition fuel s).2, position + 1 < (forCondition fuel s).1.here := by
  rw [Guarded.forCondition, Compiler.forCondition]
  split
  · exact ⟨rfl, (keeps_advance s).follows sound, nofun⟩
  · obtain ⟨⟨given, kept⟩, -⟩ := (expressionTotal fuel).expression s sound.closed enough
    have kept := kept.trans (keeps_consume _ .semicolon .expectSemicolonAfterCondition)
    rw [given]
    refine ⟨rfl, (kept.trans ((keeps_emitJump _ _).trans (keeps_emitOp _ _))).follows sound, ?_⟩
    intro position member
    have here := (keeps_emitOp (((expression fuel s).consume .semicolon
      .expectSemicolonAfterCondition).emitJump .jumpIfFalse) .pop).here
    rw [here_emitJump] at here
    rw [← Option.some.inj (Option.mem_def.mp member)]
    dsimp only
    omega

theorem forIncrement_passes (start : Nat) :
    Guarded.forIncrement fuel start s = some (forIncrement fuel start s) ∧
      Follows s (forIncrement fuel start s).1 [] := by
  rw [Guarded.forIncrement, Compiler.forIncrement]
  split
  · exact ⟨rfl, (keeps_advance s).follows sound⟩
  · have jumped := keeps_emitJump s .jump
    have fewer := jumped.tokens
    obtain ⟨⟨given, kept⟩, -⟩ := (expressionTotal fuel).expression _ (jumped.closed sound.closed)
      (by omega)
    have kept := kept.trans (((keeps_emitOp _ .pop).trans
      (keeps_consume _ .colon .expectColonAfterClauses)).trans (keeps_emitLoop _ start))
    have inside : s.here + 1 + 1 < (((((expression fuel (s.emitJump .jump)).emitOp .pop).consume
        .colon .expectColonAfterClauses).emitLoop start).here) := by
      have here := kept.here
      rw [here_emitJump] at here
      omega
    refine ⟨?_, (jumped.trans (kept.trans (keeps_patchJump _ _))).follows sound⟩
    simp only [Option.bind_eq_bind, given, Option.bind_some, Guarded.patchJump_eq inside]

end

theorem keeps_discardLoopLocals (loop : Loop) : Keeps s (s.discardLoopLocals loop) :=
  keeps_emitPops s _

theorem breakStatement_follows (sound : s.Sound) : Follows s s.breakStatement [] := by
  rw [Compiler.breakStatement]
  split
  · exact ((keeps_fault s _).trans (keeps_consume _ _ _)).follows sound
  · rename_i loop others loops
    have kept := ((keeps_consume s .semicolon .expectSemicolonAfterBreak).trans
      (keeps_discardLoopLocals loop))
    dsimp only
    generalize (s.consume .semicolon .expectSemicolonAfterBreak).discardLoopLocals loop = t at kept ⊢
    have jumped := kept.trans (keeps_emitJump t .jump)
    have sound := jumped.sound sound
    have place := here_emitJump t .jump
    generalize t.emitJump .jump = u at jumped sound place ⊢
    have same : u.draft.loops = loop :: others := jumped.loops.trans loops
    have breaks := sound.breaks
    rw [same] at breaks
    rw [addBreak, same]
    refine { jumped.follows ‹_› with sound := ⟨sound.closed, sound.bottom, ?_⟩, loops := ?_ }
    · intro other member position listed
      rcases List.mem_cons.mp member with rfl | outer
      · rcases List.mem_append.mp listed with old | new
        · exact breaks loop List.mem_cons_self position old
        · rw [List.mem_singleton.mp new]
          show t.here + 1 + 1 < u.here
          omega
      · exact breaks other (List.mem_cons_of_mem _ outer) position listed
    · rw [loops]
      rfl

theorem continueStatement_follows (sound : s.Sound) : Follows s s.continueStatement [] := by
  rw [Compiler.continueStatement]
  split
  · exact ((keeps_fault s _).trans (keeps_consume _ _ _)).follows sound
  · exact ((keeps_consume _ _ _).trans ((keeps_discardLoopLocals _).trans
      (keeps_emitLoop _ _))).follows sound

/-! Functions -/

theorem addParameter_passes (sound : s.Sound) :
    Passes s (Guarded.addParameter s) s.addParameter := by
  rw [Guarded.addParameter, Compiler.addParameter]
  dsimp only
  have counted : Keeps s (if (maxArguments : Int) < s.draft.routine.arity + 1 then
      { s with draft := { s.draft with
        routine := { s.draft.routine with arity := s.draft.routine.arity + 1 } } }.faultAhead
          .tooManyParameters
      else { s with draft := { s.draft with
        routine := { s.draft.routine with arity := s.draft.routine.arity + 1 } } }) := by
    have one := Keeps.ofRoutine s { s.draft.routine with arity := s.draft.routine.arity + 1 }
      (Nat.le_refl _)
    split
    · exact one.trans (keeps_faultAhead _ _)
    · exact one
  generalize (if (maxArguments : Int) < s.draft.routine.arity + 1 then _ else _) = t at counted ⊢
  obtain ⟨parsed, named⟩ := (counted.sound sound).parseVariable .expectParameterName
  obtain ⟨given, marked, -⟩ := parsed.sound.markInitialized named
  exact ⟨given, counted.before sound (parsed.trans marked)⟩

theorem parameters_passes (fuel : Nat) (sound : s.Sound) (enough : s.tokens.length < fuel) :
    Passes s (Guarded.parameters fuel s) (parameters fuel s) := by
  induction fuel generalizing s with
  | zero => exact absurd enough (Nat.not_lt_zero _)
  | succ fuel ih =>
      obtain ⟨given, added⟩ := addParameter_passes sound
      have fewer := added.descends.le
      rw [Guarded.parameters, Compiler.parameters, given]
      simp only [Option.bind_eq_bind, Option.bind_some]
      split
      · rename_i comma
        have more : s.addParameter.current.kind ≠ .eof := by
          intro ended
          rw [check, ended] at comma
          exact absurd comma (by decide)
        have advanced := keeps_advance s.addParameter
        have shorter := advance_shorter added.sound.closed more
        obtain ⟨others, follows⟩ := ih (advanced.sound added.sound) (by omega)
        exact ⟨others, (added.keeps advanced).trans follows⟩
      · exact ⟨rfl, added⟩

theorem parameterList_passes (fuel : Nat) (sound : s.Sound) (enough : s.tokens.length < fuel) :
    Passes s (Guarded.parameterList fuel s) (parameterList fuel s) := by
  have consumed := keeps_consume s .leftParen .expectParenAfterName
  have fewer := consumed.tokens
  rw [Guarded.parameterList, Compiler.parameterList]
  dsimp only
  split
  · exact ⟨rfl, (consumed.trans (keeps_consume _ _ _)).follows sound⟩
  · obtain ⟨given, follows⟩ := parameters_passes fuel (consumed.sound sound) (by omega)
    rw [given]
    exact ⟨rfl, (consumed.before sound follows).keeps (keeps_consume _ _ _)⟩

theorem Follows.closeRoutine {name : String}
    (inner : Follows (s.openRoutine name).beginScope t calls) (sound : s.Sound) :
    Guarded.closeRoutine t = some t.closeRoutine ∧ Follows s t.closeRoutine calls ∧
      t.closeRoutine.draft.locals = s.draft.locals := by
  have enclosing : t.enclosing = s.draft :: s.enclosing := inner.enclosing
  have back : Follows s { t with draft := s.draft, enclosing := s.enclosing } calls := {
    sound := ⟨inner.sound.closed, sound.bottom, sound.breaks⟩
    here := Nat.le_refl _
    depth := rfl
    loops := rfl
    enclosing := rfl
    descends := inner.descends
    credit := inner.credit }
  rw [Guarded.closeRoutine, Compiler.closeRoutine, enclosing, if_neg (List.cons_ne_nil _ _)]
  exact ⟨rfl, back.keeps (keeps_emitConstant _ _), (keeps_emitConstant _ _).locals⟩

end

/-- With enough fuel for the tokens ahead, statements and declarations find everything in its place. -/
structure StatementTotal (fuel : Nat) : Prop where
  declaration : ∀ s, s.Sound → s.current.kind ≠ .eof → 16 * s.tokens.length + 5 ≤ fuel →
    Runs s (Guarded.declaration fuel s) (declaration fuel s) ∧
      (declaration fuel s).tokens.length < s.tokens.length
  functionDeclaration : ∀ s, s.Sound → 16 * s.tokens.length + 9 ≤ fuel →
    Runs s (Guarded.functionDeclaration fuel s) (functionDeclaration fuel s)
  function : ∀ name s, s.Sound → 16 * s.tokens.length + 8 ≤ fuel →
    Runs s (Guarded.function fuel name s) (function fuel name s) ∧
      (function fuel name s).draft.locals = s.draft.locals
  block : ∀ s, s.Sound → 16 * s.tokens.length + 6 ≤ fuel →
    Runs s (Guarded.block fuel s) (block fuel s)
  statement : ∀ s, s.Sound → 16 * s.tokens.length + 4 ≤ fuel →
    ∃ calls, Guarded.statement fuel s = some (statement fuel s, calls) ∧
      Follows s (statement fuel s) calls ∧ (∀ ahead ∈ calls, ahead < s.tokens.length) ∧
      (s.current.kind ≠ .eof → (statement fuel s).tokens.length < s.tokens.length)
  ifStatement : ∀ s, s.Sound → 16 * s.tokens.length + 5 ≤ fuel →
    Runs s (Guarded.ifStatement fuel s) (ifStatement fuel s)
  whileStatement : ∀ s, s.Sound → 16 * s.tokens.length + 5 ≤ fuel →
    Runs s (Guarded.whileStatement fuel s) (whileStatement fuel s)
  forStatement : ∀ s, s.Sound → 16 * s.tokens.length + 5 ≤ fuel →
    Runs s (Guarded.forStatement fuel s) (forStatement fuel s)

namespace StatementTotal

variable {fuel : Nat} (ih : StatementTotal fuel) {s : Compiler} (sound : s.Sound)

include ih sound

theorem declaration_succ (more : s.current.kind ≠ .eof)
    (enough : 16 * s.tokens.length + 5 ≤ fuel + 1) :
    Runs s (Guarded.declaration (fuel + 1) s) (Compiler.declaration (fuel + 1) s) ∧
      (Compiler.declaration (fuel + 1) s).tokens.length < s.tokens.length := by
  have advanced := keeps_advance s
  have shorter := advance_shorter sound.closed more
  have recovers : ∀ t calls, Follows s t calls → (∀ ahead ∈ calls, ahead < s.tokens.length) →
      t.tokens.length < s.tokens.length →
      Runs s ((Guarded.recover t).bind fun after =>
        if after.tokens.length < s.tokens.length then some (after, s.tokens.length :: calls) else none)
        t.recover ∧ t.recover.tokens.length < s.tokens.length := by
    intro t calls follows below fewer
    obtain ⟨given, recovered, less⟩ := follows.recover below fewer
    refine ⟨⟨_, ?_, recovered⟩, less⟩
    rw [given, Option.bind_some, if_pos less]
  have passed : ∀ {guarded t}, Runs s.advance guarded t → ∃ calls, guarded = some (t, calls) ∧
      Follows s t calls ∧ (∀ ahead ∈ calls, ahead < s.tokens.length) ∧
      t.tokens.length < s.tokens.length := by
    rintro guarded t ⟨calls, given, follows⟩
    refine ⟨calls, given, advanced.before sound follows, ?_, ?_⟩
    · intro ahead member
      exact Nat.lt_of_le_of_lt (follows.descends.bounds ahead member).2 shorter
    · exact Nat.lt_of_le_of_lt follows.descends.le shorter
  rw [Guarded.declaration, Compiler.declaration]
  split
  · obtain ⟨calls, given, follows, below, fewer⟩ :=
      passed (ih.functionDeclaration s.advance (advanced.sound sound) (by omega))
    simp only [Option.bind_eq_bind, given, Option.bind_some]
    exact recovers _ calls follows below fewer
  · split
    · obtain ⟨calls, given, follows, below, fewer⟩ :=
        passed (varDeclaration_passes fuel (advanced.sound sound) (by omega)).runs
      simp only [Option.bind_eq_bind, given, Option.bind_some]
      exact recovers _ calls follows below fewer
    · obtain ⟨calls, given, follows, below, fewer⟩ := ih.statement s sound (by omega)
      simp only [Option.bind_eq_bind, given, Option.bind_some]
      exact recovers _ calls follows below (fewer more)

theorem functionDeclaration_succ (enough : 16 * s.tokens.length + 9 ≤ fuel + 1) :
    Runs s (Guarded.functionDeclaration (fuel + 1) s)
      (Compiler.functionDeclaration (fuel + 1) s) := by
  obtain ⟨parsed, named⟩ := sound.parseVariable .expectFunctionName
  rw [Guarded.functionDeclaration, Compiler.functionDeclaration]
  generalize s.parseVariable .expectFunctionName = declared at parsed named ⊢
  obtain ⟨t, global⟩ := declared
  dsimp only at parsed named ⊢
  obtain ⟨marked, follows, still⟩ := parsed.sound.markInitialized named
  have follows := parsed.trans follows
  have fewer := follows.descends.le
  obtain ⟨⟨calls, given, body⟩, locals⟩ := ih.function t.markInitialized.previous.lexeme
    t.markInitialized follows.sound (by omega)
  have stillNamed : (Compiler.function fuel t.markInitialized.previous.lexeme
      t.markInitialized).Named := by
    rw [Named, locals, body.depth]
    exact still
  obtain ⟨defined, last⟩ := body.sound.defineVariable stillNamed global
  rw [marked]
  simp only [Option.bind_eq_bind, Option.bind_some, given, defined]
  refine ⟨calls, rfl, ?_⟩
  have whole := (follows.trans body).trans last
  rwa [List.append_nil] at whole

theorem function_succ (name : String) (enough : 16 * s.tokens.length + 8 ≤ fuel + 1) :
    Runs s (Guarded.function (fuel + 1) name s) (Compiler.function (fuel + 1) name s) ∧
      (Compiler.function (fuel + 1) name s).draft.locals = s.draft.locals := by
  have opened : (s.openRoutine name).beginScope.Sound := ⟨sound.closed, rfl, nofun⟩
  have same : (s.openRoutine name).beginScope.tokens = s.tokens := rfl
  obtain ⟨given, listed⟩ := parameterList_passes fuel opened (by rw [same]; omega)
  have closes : ∀ t calls, Follows (s.openRoutine name).beginScope t calls →
      Runs s ((Guarded.closeRoutine t).bind fun after => some (after, calls)) t.closeRoutine ∧ t.closeRoutine.draft.locals = s.draft.locals := by
    intro t calls follows
    obtain ⟨given, closed, locals⟩ := follows.closeRoutine sound
    exact ⟨⟨calls, by rw [given]; rfl, closed⟩, locals⟩
  rw [Guarded.function, Compiler.function, given]
  simp only [Option.bind_eq_bind, Option.bind_some]
  generalize parameterList fuel (s.openRoutine name).beginScope = t at listed ⊢
  have fewer := listed.descends.le
  rw [same] at fewer
  split
  · have advanced := keeps_advance t
    have fewerToo := advanced.tokens
    obtain ⟨⟨body, kept⟩, -⟩ := (expressionTotal fuel).expression t.advance
      (advanced.closed listed.sound.closed) (by omega)
    simp only [body, Option.bind_some]
    exact closes _ [] (listed.keeps (advanced.trans (kept.trans
      ((keeps_consume _ _ _).trans (keeps_emitOp _ _)))))
  · have consumed := keeps_consume t .leftBrace .expectBraceBeforeBody
    have fewerToo := consumed.tokens
    obtain ⟨calls, body, follows⟩ := ih.block _ (consumed.sound listed.sound) (by omega)
    simp only [body, Option.bind_some]
    exact closes _ calls
      (((listed.keeps consumed).trans follows).keeps (keeps_emitFalseReturn _))

theorem block_succ (enough : 16 * s.tokens.length + 6 ≤ fuel + 1) :
    Runs s (Guarded.block (fuel + 1) s) (Compiler.block (fuel + 1) s) := by
  rw [Guarded.block, Compiler.block]
  split
  · exact ⟨[], rfl, (keeps_consume s _ _).follows sound⟩
  · rename_i goes
    have more : s.current.kind ≠ .eof := by
      intro ended
      rw [check, check, ended] at goes
      exact goes (by simp)
    obtain ⟨⟨calls, given, follows⟩, shorter⟩ := ih.declaration s sound more (by omega)
    obtain ⟨others, givenToo, followsToo⟩ := ih.block _ follows.sound (by omega)
    simp only [Option.bind_eq_bind, given, Option.bind_some, givenToo]
    exact ⟨calls ++ others, rfl, follows.trans followsToo⟩

theorem statement_succ (enough : 16 * s.tokens.length + 4 ≤ fuel + 1) :
    ∃ calls, Guarded.statement (fuel + 1) s = some (Compiler.statement (fuel + 1) s, calls) ∧
      Follows s (Compiler.statement (fuel + 1) s) calls ∧
      (∀ ahead ∈ calls, ahead < s.tokens.length) ∧
      (s.current.kind ≠ .eof →
        (Compiler.statement (fuel + 1) s).tokens.length < s.tokens.length) := by
  have advanced := keeps_advance s
  have soundNow := advanced.sound sound
  have passed : ∀ {kind guarded t}, s.current.kind = kind → kind ≠ .eof → Runs s.advance guarded t →
      ∃ calls, guarded = some (t, calls) ∧ Follows s t calls ∧
      (∀ ahead ∈ calls, ahead < s.tokens.length) ∧
      (kind ≠ .eof → t.tokens.length < s.tokens.length) := by
    rintro kind guarded t current more ⟨calls, given, follows⟩
    have shorter := advance_shorter sound.closed (by rw [current]; exact more)
    refine ⟨calls, given, advanced.before sound follows, ?_, ?_⟩
    · intro ahead member
      exact Nat.lt_of_le_of_lt (follows.descends.bounds ahead member).2 shorter
    · intro _
      exact Nat.lt_of_le_of_lt follows.descends.le shorter
  have slack : s.current.kind ≠ .eof → 16 * s.advance.tokens.length + 13 ≤ fuel := by
    intro more
    have shorter := advance_shorter sound.closed more
    omega
  rw [Guarded.statement, Compiler.statement]
  split
  all_goals rename_i kind
  · have slack := slack (by rw [kind]; decide)
    rw [kind]
    exact passed kind (by decide) (printStatement_passes fuel soundNow (by omega)).runs
  · have slack := slack (by rw [kind]; decide)
    rw [kind]
    exact passed kind (by decide) (ih.ifStatement s.advance soundNow (by omega))
  · have slack := slack (by rw [kind]; decide)
    rw [kind]
    exact passed kind (by decide) (ih.whileStatement s.advance soundNow (by omega))
  · have slack := slack (by rw [kind]; decide)
    rw [kind]
    exact passed kind (by decide) (ih.forStatement s.advance soundNow (by omega))
  · rw [kind]
    exact passed kind (by decide) ⟨[], rfl, breakStatement_follows soundNow⟩
  · rw [kind]
    exact passed kind (by decide) ⟨[], rfl, continueStatement_follows soundNow⟩
  · have slack := slack (by rw [kind]; decide)
    rw [kind]
    exact passed kind (by decide) (returnStatement_passes fuel soundNow (by omega)).runs
  · have slack := slack (by rw [kind]; decide)
    rw [kind]
    refine passed kind (by decide) ?_
    have begun : s.advance.beginScope.Sound := ⟨soundNow.closed, soundNow.bottom, soundNow.breaks⟩
    obtain ⟨calls, given, follows⟩ := ih.block s.advance.beginScope begun
      (show 16 * s.advance.tokens.length + 6 ≤ fuel by omega)
    obtain ⟨ended, whole⟩ := follows.endScope
    refine ⟨calls, ?_, whole⟩
    simp only [Option.bind_eq_bind, given, Option.bind_some, ended]
  · obtain ⟨⟨given, follows⟩, shorter⟩ := expressionStatement_passes fuel sound (by omega)
    simp only [given, Option.map_some]
    exact ⟨[], rfl, follows, by simp, shorter⟩

theorem ifStatement_succ (enough : 16 * s.tokens.length + 5 ≤ fuel + 1) :
    Runs s (Guarded.ifStatement (fuel + 1) s) (Compiler.ifStatement (fuel + 1) s) := by
  obtain ⟨⟨condition, kept⟩, -⟩ := (expressionTotal fuel).expression s sound.closed (by omega)
  rw [Guarded.ifStatement, Compiler.ifStatement, condition]
  simp only [Option.bind_eq_bind, Option.bind_some]
  have kept := kept.trans (keeps_consume _ .colon .expectColonAfterCondition)
  generalize (Compiler.expression fuel s).consume .colon .expectColonAfterCondition = t at kept ⊢
  have place := here_emitJump t .jumpIfFalse
  have jumped := (keeps_emitJump t .jumpIfFalse).trans (keeps_emitOp _ .pop)
  have fewer := (kept.trans jumped).tokens
  obtain ⟨calls, body, follows, -⟩ := ih.statement _ ((kept.trans jumped).sound sound) (by omega)
  have first := (kept.trans jumped).before sound follows
  have past := Nat.le_trans (keeps_emitOp (t.emitJump .jumpIfFalse) .pop).here follows.here
  rw [body]
  simp only [Option.bind_some]
  generalize Compiler.statement fuel ((t.emitJump .jumpIfFalse).emitOp .pop) = u at first past ⊢
  have placeToo := here_emitJump u .jump
  have inside : t.here + 1 + 1 < (u.emitJump .jump).here := by omega
  rw [Guarded.patchJump_eq inside]
  simp only [Option.bind_some]
  have patched := (keeps_patchJump (u.emitJump .jump) (t.here + 1)).trans (keeps_emitOp _ .pop)
  have then_ := first.keeps ((keeps_emitJump u .jump).trans patched)
  have room := patched.here
  generalize ((u.emitJump .jump).patchJump (t.here + 1)).emitOp .pop = v at then_ room ⊢
  have fewerToo := then_.descends.le
  split
  · have passed := (keeps_advance v).trans (keeps_consume _ .colon .expectColonAfterElse)
    have fewest := passed.tokens
    obtain ⟨others, orElse, last, -⟩ := ih.statement _ (passed.sound then_.sound) (by omega)
    have whole := then_.trans (passed.before then_.sound last)
    have deep := Nat.le_trans passed.here last.here
    rw [orElse]
    simp only [Option.bind_some]
    rw [Guarded.patchJump_eq (by omega)]
    exact ⟨calls ++ others, rfl, whole.keeps (keeps_patchJump _ _)⟩
  · rw [Guarded.patchJump_eq (by omega)]
    refine ⟨calls ++ [], rfl, ?_⟩
    rw [List.append_nil]
    exact then_.keeps (keeps_patchJump _ _)

theorem whileStatement_succ (enough : 16 * s.tokens.length + 5 ≤ fuel + 1) :
    Runs s (Guarded.whileStatement (fuel + 1) s) (Compiler.whileStatement (fuel + 1) s) := by
  obtain ⟨⟨condition, kept⟩, -⟩ := (expressionTotal fuel).expression s sound.closed (by omega)
  rw [Guarded.whileStatement, Compiler.whileStatement, condition]
  simp only [Option.bind_eq_bind, Option.bind_some]
  have kept := kept.trans (keeps_consume _ .colon .expectColonAfterCondition)
  generalize (Compiler.expression fuel s).consume .colon .expectColonAfterCondition = t at kept ⊢
  have place := here_emitJump t .jumpIfFalse
  have jumped := (keeps_emitJump t .jumpIfFalse).trans (keeps_emitOp _ .pop)
  have past := (keeps_emitOp (t.emitJump .jumpIfFalse) .pop).here
  have ready := kept.trans jumped
  have soundNow := ready.sound sound
  generalize (t.emitJump .jumpIfFalse).emitOp .pop = u at past ready soundNow ⊢
  have fewer := ready.tokens
  obtain ⟨calls, body, follows, -⟩ := ih.statement (u.pushLoop s.here) (soundNow.pushLoop _)
    (show 16 * u.tokens.length + 4 ≤ fuel by omega)
  have looped := keeps_emitLoop (Compiler.statement fuel (u.pushLoop s.here)) s.here
  have deep : u.here ≤ _ := Nat.le_trans follows.here looped.here
  rw [body]
  simp only [Option.bind_some]
  rw [Guarded.patchJump_eq (by omega)]
  simp only [Option.bind_some]
  obtain ⟨popped, whole⟩ := (follows.keeps (looped.trans ((keeps_patchJump _ (t.here + 1)).trans
    (keeps_emitOp _ .pop)))).popLoop
  rw [popped]
  exact ⟨calls, rfl, ready.before sound whole⟩

theorem forStatement_succ (enough : 16 * s.tokens.length + 5 ≤ fuel + 1) :
    Runs s (Guarded.forStatement (fuel + 1) s) (Compiler.forStatement (fuel + 1) s) := by
  have begun : s.beginScope.Sound := ⟨sound.closed, sound.bottom, sound.breaks⟩
  have same : s.beginScope.tokens = s.tokens := rfl
  obtain ⟨initial, first⟩ := forInitializer_passes fuel begun (by rw [same]; omega)
  rw [Guarded.forStatement, Compiler.forStatement, initial]
  simp only [Option.bind_eq_bind, Option.bind_some]
  have fewer := first.descends.le
  rw [same] at fewer
  generalize forInitializer fuel s.beginScope = t at first fewer ⊢
  obtain ⟨condition, second, exits⟩ := forCondition_passes fuel first.sound (by omega)
  rw [condition]
  simp only [Option.bind_some]
  have second := first.trans second
  have fewerToo := second.descends.le
  rw [same] at fewerToo
  generalize forCondition fuel t = conditioned at second exits fewerToo ⊢
  obtain ⟨u, exit⟩ := conditioned
  dsimp only at second exits fewerToo ⊢
  obtain ⟨increment, third⟩ := forIncrement_passes fuel second.sound (by omega) t.here
  rw [increment]
  simp only [Option.bind_some]
  have further := third.here
  have third := second.trans third
  have fewest := third.descends.le
  rw [same] at fewest
  generalize forIncrement fuel t.here u = incremented at third further fewest ⊢
  obtain ⟨v, start⟩ := incremented
  dsimp only at third further fewest ⊢
  obtain ⟨calls, body, follows, -⟩ := ih.statement (v.pushLoop start) (third.sound.pushLoop _)
    (show 16 * v.tokens.length + 4 ≤ fuel by omega)
  have looped := keeps_emitLoop (Compiler.statement fuel (v.pushLoop start)) start
  have deep : v.here ≤ _ := Nat.le_trans follows.here looped.here
  rw [body]
  simp only [Option.bind_some]
  have closes : ∀ w, Keeps ((Compiler.statement fuel (v.pushLoop start)).emitLoop start) w →
      Runs s ((Guarded.popLoop w).bind fun after =>
        (Guarded.endScope after).bind fun after => some (after, calls)) w.popLoop.endScope := by
    intro w kept
    obtain ⟨popped, inner⟩ := (follows.keeps (looped.trans kept)).popLoop
    obtain ⟨ended, whole⟩ := (third.trans inner).endScope
    rw [popped, Option.bind_some, ended, Option.bind_some]
    exact ⟨calls, rfl, whole⟩
  cases exit with
  | none => exact closes _ (.refl _)
  | some position =>
      have inside := exits position rfl
      dsimp only
      rw [Guarded.patchJump_eq (by omega)]
      exact closes _ ((keeps_patchJump _ position).trans (keeps_emitOp _ .pop))

end StatementTotal

theorem statementTotal (fuel : Nat) : StatementTotal fuel := by
  induction fuel with
  | zero => constructor <;> intros <;> exact absurd ‹_ ≤ 0› (by omega)
  | succ fuel ih =>
      exact {
        declaration := fun _ sound more enough => ih.declaration_succ sound more enough
        functionDeclaration := fun _ sound enough => ih.functionDeclaration_succ sound enough
        function := fun name _ sound enough => ih.function_succ sound name enough
        block := fun _ sound enough => ih.block_succ sound enough
        statement := fun _ sound enough => ih.statement_succ sound enough
        ifStatement := fun _ sound enough => ih.ifStatement_succ sound enough
        whileStatement := fun _ sound enough => ih.whileStatement_succ sound enough
        forStatement := fun _ sound enough => ih.forStatement_succ sound enough }

theorem declarations_runs (fuel : Nat) {s : Compiler} (sound : s.Sound)
    (enough : 16 * s.tokens.length + 6 ≤ fuel) :
    Runs s (Guarded.declarations fuel s) (declarations fuel s) := by
  induction fuel generalizing s with
  | zero => exact absurd enough (by omega)
  | succ fuel ih =>
      rw [Guarded.declarations, Compiler.declarations]
      split
      · exact ⟨[], rfl, (keeps_advance s).follows sound⟩
      · rename_i goes
        have more : s.current.kind ≠ .eof := by
          intro ended
          rw [check, ended] at goes
          exact goes rfl
        obtain ⟨⟨calls, given, follows⟩, shorter⟩ :=
          (statementTotal fuel).declaration s sound more (by omega)
        obtain ⟨others, givenToo, followsToo⟩ := ih follows.sound (by omega)
        simp only [Option.bind_eq_bind, given, Option.bind_some, givenToo]
        exact ⟨calls ++ others, rfl, follows.trans followsToo⟩

theorem start_sound (unit : Nat) {tokens : List Token} (closed : Closed tokens) :
    (start unit tokens).advance.Sound ∧ (start unit tokens).advance.tokens.length < tokens.length ∧
      (start unit tokens).advance.credit ≤ 1 := by
  obtain ⟨draft, -, -, -, credit⟩ :=
    keeps_fetch { start unit tokens with previous := (start unit tokens).current } tokens
  obtain ⟨closedNow, shorter⟩ :=
    fetch_spec { start unit tokens with previous := (start unit tokens).current } closed
  have same : (start unit tokens).advance.draft = Draft.start { unit, index := 0 } "" := draft
  refine ⟨⟨closedNow, by rw [same]; rfl, by rw [same]; exact nofun⟩, shorter, credit⟩

theorem size_le_credit (s : Compiler) : s.diagnostics.size ≤ s.credit := Nat.le_add_right _ _

theorem finish_ok_iff (s : Compiler) : (∃ r, s.finish = .ok r) ↔ s.diagnostics = #[] := by
  rw [finish]
  split
  · rename_i none
    exact ⟨fun _ => Array.isEmpty_iff.mp none, fun _ => ⟨_, rfl⟩⟩
  · rename_i some
    exact ⟨fun ⟨_, given⟩ => absurd given nofun, fun none => absurd (Array.isEmpty_iff.mpr none) some⟩

end Compiler

/-- Every source has an outcome, well-formed or not. Scripts and expressions are compiled without a
rule or a place that is missing and without want of fuel. Every declaration passes a token, so no two
of them start at the same one. There is a routine exactly if there is nothing to report, and each
declaration adds one report at most. -/
theorem compilation_total (unit : Nat) (source : List UInt8) :
    (∃ s calls, Compiler.Guarded.script unit (scan source) = some (s, calls) ∧
      compileBytes unit source = s.finish ∧
      ((∃ r, compileBytes unit source = .ok r) ↔ s.diagnostics = #[]) ∧
      calls.Pairwise (· > ·) ∧ (∀ ahead ∈ calls, 0 < ahead ∧ ahead < (scan source).length) ∧
      calls.length < (scan source).length ∧ s.diagnostics.size ≤ calls.length + 1) ∧
    ∃ s, Compiler.Guarded.singleExpression unit (scan source) = some s ∧
      compileExpressionBytes unit source = s.finish ∧
      ((∃ r, compileExpressionBytes unit source = .ok r) ↔ s.diagnostics = #[]) ∧
      s.diagnostics.size ≤ 1 := by
  obtain ⟨sound, shorter, credit⟩ := Compiler.start_sound unit (scan_spec source).1
  constructor
  · obtain ⟨calls, given, follows⟩ := Compiler.declarations_runs (Compiler.fuelFor (scan source)) sound
      (by rw [Compiler.fuelFor]; omega)
    have last := follows.keeps (Compiler.keeps_emitFalseReturn _)
    refine ⟨_, calls, ?_, rfl, Compiler.finish_ok_iff _, last.descends.pairwise, ?_, ?_, ?_⟩
    · rw [Compiler.Guarded.script, given]
      rfl
    · intro ahead member
      have := last.descends.bounds ahead member
      omega
    · have := last.descends.length_le
      omega
    · have size := Compiler.size_le_credit
        (Compiler.declarations (Compiler.fuelFor (scan source))
          (Compiler.start unit (scan source)).advance).emitFalseReturn
      have bound := last.credit
      omega
  · obtain ⟨⟨given, kept⟩, -⟩ := (Compiler.expressionTotal (Compiler.fuelFor (scan source))).expression
      _ sound.closed (by rw [Compiler.fuelFor]; omega)
    have last := kept.trans ((Compiler.keeps_consume _ .eof .expectEndOfExpression).trans
      (Compiler.keeps_emitOp _ .return))
    refine ⟨_, ?_, rfl, Compiler.finish_ok_iff _, ?_⟩
    · rw [Compiler.Guarded.singleExpression, given]
      rfl
    · exact Nat.le_trans (Compiler.size_le_credit _) (Nat.le_trans last.credit credit)

end Reckoner
