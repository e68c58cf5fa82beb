import Reckoner.Proofs.Compiler.Totality

/-!
What the compiler does, step by step, as far as its diagnostics are concerned. It passes tokens, reports
at the token just read or at the one ahead, changes its draft, and after an error synchronizes at the end
of a declaration. Between a synchronization and the next token it reports nothing at the token just read.
-/

namespace Reckoner.Compiler

/-- What may be reported next. After a synchronization the last diagnostic may stand at the token ahead,
and until that has been read nothing may be reported at the token before it. -/
inductive Phase where
  | settled
  | ahead
  deriving Repr, DecidableEq, Inhabited

/-- The steps from one state to another, with the states in which the compiler synchronized. -/
inductive Course : Phase → Compiler → (calls : List Compiler) → Phase → Compiler → Prop where
  | stay (p : Phase) (s : Compiler) : Course p s [] p s
  | advance {p q : Phase} {s t : Compiler} {calls : List Compiler} (course : Course p s calls q t) :
    Course p s calls .settled t.advance
  | fault {p : Phase} {s t : Compiler} {calls : List Compiler} (course : Course p s calls .settled t)
    (c : Complaint) : Course p s calls .settled (t.fault c)
  | faultAhead {p q : Phase} {s t : Compiler} {calls : List Compiler} (course : Course p s calls q t)
    (c : Complaint) : Course p s calls .settled (t.faultAhead c)
  | redraft {p q : Phase} {s t : Compiler} {calls : List Compiler} (course : Course p s calls q t)
    (created : Nat) (draft : Draft) (enclosing : List Draft) :
    Course p s calls q { t with created, draft, enclosing }
  | loosen {p : Phase} {s t : Compiler} {calls : List Compiler} (course : Course p s calls .settled t) :
    Course p s calls .ahead t
  | recover {p q : Phase} {s t : Compiler} {calls : List Compiler} (course : Course p s calls q t)
    (silent : t.silent = true) : Course p s (calls ++ [t]) .ahead t.recover

theorem Course.trans {p q r : Phase} {s t u : Compiler} {calls more : List Compiler}
    (first : Course p s calls q t) (second : Course q t more r u) : Course p s (calls ++ more) r u := by
  induction second with
  | stay => rwa [List.append_nil]
  | advance _ ih => exact (ih first).advance
  | fault _ c ih => exact (ih first).fault c
  | faultAhead _ c ih => exact (ih first).faultAhead c
  | redraft _ created draft enclosing ih => exact (ih first).redraft created draft enclosing
  | loosen _ ih => exact (ih first).loosen
  | recover _ silent ih =>
      rw [← List.append_assoc]
      exact (ih first).recover silent

def Goes (p : Phase) (s : Compiler) (q : Phase) (t : Compiler) : Prop := ∃ calls, Course p s calls q t

namespace Goes

variable {p q r : Phase} {s t u : Compiler}

theorem refl (p : Phase) (s : Compiler) : Goes p s p s := ⟨[], .stay p s⟩

theorem trans (first : Goes p s q t) (second : Goes q t r u) : Goes p s r u := by
  obtain ⟨calls, first⟩ := first
  obtain ⟨more, second⟩ := second
  exact ⟨calls ++ more, first.trans second⟩

theorem advance (p : Phase) (s : Compiler) : Goes p s .settled s.advance := ⟨[], (Course.stay p s).advance⟩

theorem consume (p : Phase) (s : Compiler) (kind : Kind) (c : Complaint) :
    Goes p s .settled (s.consume kind c) := by
  rw [Compiler.consume]
  split
  · exact .advance p s
  · exact ⟨[], (Course.stay p s).faultAhead c⟩

theorem loosen (goes : Goes p s .settled t) : Goes p s .ahead t := by
  obtain ⟨calls, course⟩ := goes
  exact ⟨calls, course.loosen⟩

theorem recover (goes : Goes p s q t) : Goes p s .ahead t.recover := by
  by_cases silent : t.silent = true
  · obtain ⟨calls, course⟩ := goes
    exact ⟨calls ++ [t], course.recover silent⟩
  · rw [Compiler.recover, if_neg silent]
    cases q with
    | settled => exact goes.loosen
    | ahead => exact goes

end Goes

theorem goesQuiet : Quiet fun s t => Goes .settled s .settled t where
  refl := .refl .settled
  trans := .trans
  advance := .advance .settled
  fault s c _ := ⟨[], (Course.stay .settled s).fault c⟩
  faultAhead s c _ := ⟨[], (Course.stay .settled s).faultAhead c⟩
  redraft s d _ := ⟨[], (Course.stay .settled s).redraft s.created d s.enclosing⟩
  name s name := ⟨[], (Course.stay .settled s).redraft s.created (s.pooled (.text name)).draft s.enclosing⟩
  number s d _ _ := ⟨[], (Course.stay .settled s).redraft s.created (s.pooled (.number d)).draft s.enclosing⟩
  unread s _ _ _ := ⟨[], (Course.stay .settled s).fault .invalidNumber⟩
  opened s name := ⟨[], (Course.stay .settled s).redraft (s.created + 1) (s.openRoutine name).draft
    (s.draft :: s.enclosing)⟩
  closed s outer rest _ := ⟨[], (Course.stay .settled s).redraft s.created
    { outer with routine := (outer.routine.addConstant (.routine s.draft.routine)).1 } rest⟩

theorem Goes.expression (p : Phase) (s : Compiler) {fuel : Nat} (enough : 2 ≤ fuel) :
    Goes p s .settled (Compiler.expression fuel s) := by
  obtain ⟨fuel, rfl⟩ : ∃ n, fuel = n + 2 := ⟨fuel - 2, by omega⟩
  have keeps := Quiet.expressionKeeps goesQuiet fuel
  have started := Goes.advance p s
  rw [Compiler.expression, Compiler.climb]
  dsimp only
  split
  · exact started.trans (Quiet.fault goesQuiet _ (by decide))
  · have first := started.trans (keeps.operand (decide (Precedence.assignment ≤ Precedence.assignment)) _)
    have operands := first.trans (keeps.operators Precedence.assignment _)
    split
    · exact (operands.trans (.advance _ _)).trans (Quiet.fault goesQuiet _ (by decide))
    · exact operands

theorem Goes.expressionStatement (p : Phase) (s : Compiler) {fuel : Nat} (enough : 2 ≤ fuel) :
    Goes p s .settled (Compiler.expressionStatement fuel s) :=
  ((Goes.expression p s enough).trans (.consume _ _ _ _)).trans (Quiet.emitOp goesQuiet _ _)

structure StatementGoes (fuel : Nat) : Prop where
  declaration : ∀ s, s.Sound → s.current.kind ≠ .eof → 16 * s.tokens.length + 5 ≤ fuel →
    Goes .ahead s .ahead (declaration fuel s)
  functionDeclaration : ∀ s, s.Sound → 16 * s.tokens.length + 9 ≤ fuel →
    Goes .settled s .settled (functionDeclaration fuel s)
  function : ∀ name s, s.Sound → 16 * s.tokens.length + 8 ≤ fuel →
    Goes .settled s .settled (function fuel name s)
  block : ∀ s, s.Sound → 16 * s.tokens.length + 6 ≤ fuel → Goes .ahead s .settled (block fuel s)
  statement : ∀ s, s.Sound → 16 * s.tokens.length + 4 ≤ fuel → Goes .ahead s .settled (statement fuel s)
  ifStatement : ∀ s, s.Sound → 16 * s.tokens.length + 5 ≤ fuel →
    Goes .settled s .settled (ifStatement fuel s)
  whileStatement : ∀ s, s.Sound → 16 * s.tokens.length + 5 ≤ fuel →
    Goes .settled s .settled (whileStatement fuel s)
  forStatement : ∀ s, s.Sound → 16 * s.tokens.length + 5 ≤ fuel →
    Goes .settled s .settled (forStatement fuel s)

namespace StatementGoes

variable {fuel : Nat} (ih : StatementGoes fuel) {s : Compiler} (sound : s.Sound)

include ih sound

theorem declaration_succ (more : s.current.kind ≠ .eof) (enough : 16 * s.tokens.length + 5 ≤ fuel + 1) :
    Goes .ahead s .ahead (Compiler.declaration (fuel + 1) s) := by
  have advanced := keeps_advance s
  have shorter := advance_shorter sound.closed more
  have passed := Goes.advance .ahead s
  rw [Compiler.declaration]
  split
  · exact (passed.trans (ih.functionDeclaration _ (advanced.sound sound) (by omega))).recover
  · split
    · exact (passed.trans (Quiet.varDeclaration goesQuiet _ _)).recover
    · exact (ih.statement s sound (by omega)).recover

theorem functionDeclaration_succ (enough : 16 * s.tokens.length + 9 ≤ fuel + 1) :
    Goes .settled s .settled (Compiler.functionDeclaration (fuel + 1) s) := by
  obtain ⟨parsed, named⟩ := sound.parseVariable .expectFunctionName
  have read := Quiet.parseVariable goesQuiet s (c := .expectFunctionName) (by decide)
  rw [Compiler.functionDeclaration]
  generalize s.parseVariable .expectFunctionName = declared at parsed named read ⊢
  obtain ⟨t, global⟩ := declared
  dsimp only at parsed named read ⊢
  obtain ⟨-, marked, -⟩ := parsed.sound.markInitialized named
  have follows := parsed.trans marked
  have fewer := follows.descends.le
  have inner := ih.function t.markInitialized.previous.lexeme _ follows.sound (by omega)
  have bound := (read.trans (Quiet.markInitialized goesQuiet t)).trans inner
  exact bound.trans (Quiet.defineVariable goesQuiet _ global)

theorem function_succ (name : String) (enough : 16 * s.tokens.length + 8 ≤ fuel + 1) :
    Goes .settled s .settled (Compiler.function (fuel + 1) name s) := by
  have opened : (s.openRoutine name).beginScope.Sound := ⟨sound.closed, rfl, nofun⟩
  have same : (s.openRoutine name).beginScope.tokens = s.tokens := rfl
  obtain ⟨-, listed⟩ := parameterList_passes fuel opened (by rw [same]; omega)
  have entered := ((Quiet.opened goesQuiet s name).trans (Quiet.beginScope goesQuiet _)).trans
    (Quiet.parameterList goesQuiet _ fuel)
  rw [Compiler.function]
  dsimp only
  generalize parameterList fuel (s.openRoutine name).beginScope = t at listed entered ⊢
  have fewer := listed.descends.le
  rw [same] at fewer
  refine Goes.trans ?_ (Quiet.closeRoutine goesQuiet _)
  split
  · have body := (Quiet.advance goesQuiet t).trans
      (Quiet.expressionThen goesQuiet fuel _ .semicolon (c := .expectSemicolonAfterFunction) (by decide))
    exact (entered.trans body).trans (Quiet.emitOp goesQuiet _ _)
  · have consumed := keeps_consume t .leftBrace .expectBraceBeforeBody
    have fewerToo := consumed.tokens
    have body := ih.block _ (consumed.sound listed.sound) (by omega)
    have braced := (entered.trans (.consume .settled t .leftBrace .expectBraceBeforeBody)).loosen
    exact (braced.trans body).trans (Quiet.emitFalseReturn goesQuiet _)

theorem block_succ (enough : 16 * s.tokens.length + 6 ≤ fuel + 1) :
    Goes .ahead s .settled (Compiler.block (fuel + 1) s) := by
  rw [Compiler.block]
  split
  · exact .consume .ahead s _ _
  · rename_i goes
    have more : s.current.kind ≠ .eof := by
      intro ended
      rw [check, check, ended] at goes
      exact goes (by simp)
    obtain ⟨⟨calls, -, follows⟩, shorter⟩ := (statementTotal fuel).declaration s sound more (by omega)
    exact (ih.declaration s sound more (by omega)).trans (ih.block _ follows.sound (by omega))

theorem statement_succ (enough : 16 * s.tokens.length + 4 ≤ fuel + 1) :
    Goes .ahead s .settled (Compiler.statement (fuel + 1) s) := by
  have advanced := keeps_advance s
  have soundNow := advanced.sound sound
  have passed := Goes.advance .ahead s
  have slack : s.current.kind ≠ .eof → 16 * s.advance.tokens.length + 13 ≤ fuel := by
    intro more
    have shorter := advance_shorter sound.closed more
    omega
  rw [Compiler.statement]
  split
  all_goals rename_i kind
  · exact passed.trans (Quiet.printStatement goesQuiet _ _)
  · have slack := slack (by rw [kind]; decide)
    exact passed.trans (ih.ifStatement _ soundNow (by omega))
  · have slack := slack (by rw [kind]; decide)
    exact passed.trans (ih.whileStatement _ soundNow (by omega))
  · have slack := slack (by rw [kind]; decide)
    exact passed.trans (ih.forStatement _ soundNow (by omega))
  · exact passed.trans (Quiet.breakStatement goesQuiet _)
  · exact passed.trans (Quiet.continueStatement goesQuiet _)
  · exact passed.trans (Quiet.returnStatement goesQuiet _ _)
  · have slack := slack (by rw [kind]; decide)
    have begun : s.advance.beginScope.Sound := ⟨soundNow.closed, soundNow.bottom, soundNow.breaks⟩
    have inner := ih.block s.advance.beginScope begun (show 16 * s.advance.tokens.length + 6 ≤ fuel by omega)
    have entered := (passed.trans (Quiet.beginScope goesQuiet s.advance)).loosen
    exact (entered.trans inner).trans (Quiet.endScope goesQuiet _)
  · exact .expressionStatement .ahead s (by omega)

theorem ifStatement_succ (enough : 16 * s.tokens.length + 5 ≤ fuel + 1) :
    Goes .settled s .settled (Compiler.ifStatement (fuel + 1) s) := by
  obtain ⟨⟨-, kept⟩, -⟩ := (expressionTotal fuel).expression s sound.closed (by omega)
  have kept := kept.trans (keeps_consume _ .colon .expectColonAfterCondition)
  have test := Quiet.expressionThen goesQuiet fuel s .colon (c := .expectColonAfterCondition) (by decide)
  rw [Compiler.ifStatement]
  generalize (Compiler.expression fuel s).consume .colon .expectColonAfterCondition = t at kept test ⊢
  have kept := kept.trans ((keeps_emitJump t .jumpIfFalse).trans (keeps_emitOp _ .pop))
  have opened := (test.trans (Quiet.emitJump goesQuiet t .jumpIfFalse)).trans (Quiet.emitOp goesQuiet _ .pop)
  generalize (t.emitJump .jumpIfFalse).emitOp .pop = u at kept opened ⊢
  have fewer := kept.tokens
  obtain ⟨calls, -, follows, -⟩ := (statementTotal fuel).statement u (kept.sound sound) (by omega)
  have consequent := opened.loosen.trans (ih.statement u (kept.sound sound) (by omega))
  have patched := Quiet.trans goesQuiet (Quiet.emitJump goesQuiet (Compiler.statement fuel u) .jump)
    (Quiet.trans goesQuiet (Quiet.patchJump goesQuiet _ (t.here + 1)) (Quiet.emitOp goesQuiet _ .pop))
  have joined := consequent.trans patched
  have follows := follows.keeps ((keeps_emitJump (Compiler.statement fuel u) .jump).trans
    ((keeps_patchJump _ (t.here + 1)).trans (keeps_emitOp _ .pop)))
  generalize (((Compiler.statement fuel u).emitJump .jump).patchJump (t.here + 1)).emitOp .pop = v
    at joined follows ⊢
  have fewerToo := follows.descends.le
  refine Goes.trans ?_ (Quiet.patchJump goesQuiet _ _)
  split
  · have passed := (keeps_advance v).trans (keeps_consume _ .colon .expectColonAfterElse)
    have fewest := passed.tokens
    have marked := (joined.trans (.advance _ v)).trans (.consume _ _ .colon .expectColonAfterElse)
    exact marked.loosen.trans (ih.statement _ (passed.sound follows.sound) (by omega))
  · exact joined

theorem whileStatement_succ (enough : 16 * s.tokens.length + 5 ≤ fuel + 1) :
    Goes .settled s .settled (Compiler.whileStatement (fuel + 1) s) := by
  obtain ⟨⟨-, kept⟩, -⟩ := (expressionTotal fuel).expression s sound.closed (by omega)
  have kept := kept.trans (keeps_consume _ .colon .expectColonAfterCondition)
  have test := Quiet.expressionThen goesQuiet fuel s .colon (c := .expectColonAfterCondition) (by decide)
  rw [Compiler.whileStatement]
  generalize (Compiler.expression fuel s).consume .colon .expectColonAfterCondition = t at kept test ⊢
  have kept := kept.trans ((keeps_emitJump t .jumpIfFalse).trans (keeps_emitOp _ .pop))
  have opened := (test.trans (Quiet.emitJump goesQuiet t .jumpIfFalse)).trans (Quiet.emitOp goesQuiet _ .pop)
  generalize (t.emitJump .jumpIfFalse).emitOp .pop = u at kept opened ⊢
  have fewer := kept.tokens
  have body := ih.statement (u.pushLoop s.here) ((kept.sound sound).pushLoop _)
    (show 16 * u.tokens.length + 4 ≤ fuel by omega)
  have looped := ((opened.trans (Quiet.pushLoop goesQuiet u s.here)).loosen.trans body).trans
    (Quiet.emitLoop goesQuiet _ s.here)
  have left := (looped.trans (Quiet.patchJump goesQuiet _ (t.here + 1))).trans (Quiet.emitOp goesQuiet _ .pop)
  exact left.trans (Quiet.popLoop goesQuiet _)

theorem forStatement_succ (enough : 16 * s.tokens.length + 5 ≤ fuel + 1) :
    Goes .settled s .settled (Compiler.forStatement (fuel + 1) s) := by
  have begun : s.beginScope.Sound := ⟨sound.closed, sound.bottom, sound.breaks⟩
  have same : s.beginScope.tokens = s.tokens := rfl
  obtain ⟨-, initialized⟩ := forInitializer_passes fuel begun (by rw [same]; omega)
  have first := (Quiet.beginScope goesQuiet s).trans (Quiet.forInitializer goesQuiet fuel _)
  have fewer := initialized.descends.le
  rw [Compiler.forStatement]
  rw [same] at fewer
  generalize Compiler.forInitializer fuel s.beginScope = t at initialized fewer first ⊢
  obtain ⟨-, conditioned, -⟩ := forCondition_passes fuel initialized.sound (by omega)
  have second := first.trans (Quiet.forCondition goesQuiet fuel t)
  have fewerToo := conditioned.descends.le
  generalize Compiler.forCondition fuel t = tested at conditioned fewerToo second ⊢
  obtain ⟨u, exit⟩ := tested
  dsimp only at conditioned fewerToo second ⊢
  obtain ⟨-, incremented⟩ := forIncrement_passes fuel conditioned.sound (by omega) t.here
  have third := second.trans (Quiet.forIncrement goesQuiet fuel u t.here)
  have fewest := incremented.descends.le
  generalize Compiler.forIncrement fuel t.here u = stepped at incremented fewest third ⊢
  obtain ⟨v, start⟩ := stepped
  dsimp only at incremented fewest third ⊢
  have body := ih.statement (v.pushLoop start) (incremented.sound.pushLoop _)
    (show 16 * v.tokens.length + 4 ≤ fuel by omega)
  have looped := ((third.trans (Quiet.pushLoop goesQuiet v start)).loosen.trans body).trans
    (Quiet.emitLoop goesQuiet _ start)
  refine Goes.trans (Goes.trans ?_ (Quiet.popLoop goesQuiet _)) (Quiet.endScope goesQuiet _)
  cases exit with
  | none => exact looped
  | some position =>
      have patched := looped.trans (Quiet.patchJump goesQuiet _ position)
      exact patched.trans (Quiet.emitOp goesQuiet _ .pop)

end StatementGoes

theorem statementGoes (fuel : Nat) : StatementGoes fuel := by
  induction fuel with
  | zero => constructor <;> intros <;> exact absurd ‹_ ≤ 0› (by omega)
  | succ fuel ih =>
      exact {
        declaration := fun _ sound more enough => ih.declaration_succ sound more enough
        functionDeclaration := fun _ sound enough => ih.functionDeclaration_succ sound enough
        function := fun name _ sound enough => ih.function_succ sound name enough
        block := fun _ sound enough => ih.block_succ sound enough
        statement := fun _ sound enough => ih.statement_succ sound enough
        ifStatement := fun _ sound enough => ih.ifStatement_succ sound enough
        whileStatement := fun _ sound enough => ih.whileStatement_succ sound enough
        forStatement := fun _ sound enough => ih.forStatement_succ sound enough }

theorem Goes.declarations (fuel : Nat) {s : Compiler} (sound : s.Sound)
    (enough : 16 * s.tokens.length + 6 ≤ fuel) : Goes .ahead s .settled (Compiler.declarations fuel s) := by
  induction fuel generalizing s with
  | zero => exact absurd enough (by omega)
  | succ fuel ih =>
      rw [Compiler.declarations]
      split
      · exact .advance .ahead s
      · rename_i goes
        have more : s.current.kind ≠ .eof := by
          intro ended
          rw [check, ended] at goes
          exact goes rfl
        obtain ⟨⟨calls, -, follows⟩, shorter⟩ := (statementTotal fuel).declaration s sound more (by omega)
        exact ((statementGoes fuel).declaration s sound more (by omega)).trans
          (ih follows.sound (by omega))

theorem Goes.script (unit : Nat) {tokens : List Token} (closed : Closed tokens) :
    Goes .ahead (start unit tokens).advance .settled
      (Compiler.declarations (fuelFor tokens) (start unit tokens).advance).emitFalseReturn := by
  obtain ⟨sound, shorter, -⟩ := start_sound unit closed
  exact (Goes.declarations _ sound (by rw [fuelFor]; omega)).trans (Quiet.emitFalseReturn goesQuiet _)

end Reckoner.Compiler
