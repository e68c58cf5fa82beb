import Reckoner.Proofs.Compiler.Traversal

/-!
Nothing that was reported is ever taken back: along every function of the compiler the diagnostics
only grow. A compilation that ends without diagnostics therefore had none at any point.
-/

namespace Reckoner.Compiler

def Reports (s t : Compiler) : Prop := s.diagnostics.toList <+: t.diagnostics.toList

namespace Reports

theorem refl (s : Compiler) : Reports s s := List.prefix_rfl

theorem of_eq {s t : Compiler} (same : t.diagnostics = s.diagnostics) : Reports s t :=
  ⟨[], by rw [same, List.append_nil]⟩

theorem trans {s t u : Compiler} (first : Reports s t) (second : Reports t u) : Reports s u :=
  List.IsPrefix.trans first second

theorem emitOp {s t : Compiler} (grown : Reports s t) (op : Operation) :
    Reports s (t.emitOp op) := grown

theorem emitWith {s t : Compiler} (grown : Reports s t) (op : Operation) (operand : UInt8) :
    Reports s (t.emitWith op operand) := grown

theorem emitJump {s t : Compiler} (grown : Reports s t) (op : Operation) :
    Reports s (t.emitJump op) := grown

theorem beginScope {s t : Compiler} (grown : Reports s t) : Reports s t.beginScope := grown

theorem pushLoop {s t : Compiler} (grown : Reports s t) (start : Nat) :
    Reports s (t.pushLoop start) := grown

theorem clean {s t : Compiler} (grown : Reports s t) (done : t.diagnostics = #[]) :
    s.diagnostics = #[] := by
  have empty : s.diagnostics.toList = [] := by
    have bound := grown
    rw [Reports, done] at bound
    exact List.prefix_nil.mp bound
  exact Array.toList_eq_nil_iff.mp empty

end Reports

section Primitives

variable (s : Compiler)

theorem reports_report (t : Token) (c : Complaint) : Reports s (s.report t c) := by
  unfold report
  split
  · exact .refl s
  · simp [Reports]

theorem reports_fault (c : Complaint) : Reports s (s.fault c) := reports_report s _ c

theorem reports_faultAhead (c : Complaint) : Reports s (s.faultAhead c) := reports_report s _ c

theorem reports_fetch (ts : List Token) : Reports s (fetch ts s) := by
  induction ts generalizing s with
  | nil => exact .of_eq rfl
  | cons t rest ih =>
      rw [fetch]
      split
      · exact (reports_report s t _).trans (ih _)
      · exact .of_eq rfl

theorem reports_advance : Reports s s.advance :=
  (Reports.of_eq (t := { s with previous := s.current }) rfl).trans (reports_fetch _ _)

theorem reports_consume (kind : Kind) (c : Complaint) : Reports s (s.consume kind c) := by
  unfold consume
  split
  · exact reports_advance s
  · exact reports_faultAhead s c

end Primitives

theorem reportsQuiet : Quiet Reports where
  refl := .refl
  trans := .trans
  advance := reports_advance
  fault s c _ := reports_fault s c
  faultAhead s c _ := reports_faultAhead s c
  redraft _ _ _ := .of_eq rfl
  name _ _ := .of_eq rfl
  number _ _ _ _ := .of_eq rfl
  unread s _ _ _ := reports_fault s _
  opened _ _ := .of_eq rfl
  closed _ _ _ _ := .of_eq rfl

/-- Nothing a compiler does takes back what it has reported. -/
theorem reportsStable : Stable Reports where
  toQuiet := reportsQuiet
  listen _ := .of_eq rfl

section Clauses

variable (s : Compiler)

theorem reports_recover : Reports s s.recover := Stable.recover reportsStable s

theorem reports_constant (c : Constant) : Reports s (s.constant c).1 :=
  Quiet.constant reportsQuiet (.of_eq rfl)

theorem reports_patchJump (position : Nat) : Reports s (s.patchJump position) :=
  Quiet.patchJump reportsQuiet s position

theorem reports_emitLoop (start : Nat) : Reports s (s.emitLoop start) :=
  Quiet.emitLoop reportsQuiet s start

theorem reports_emitOps (ops : List Operation) : Reports s (s.emitOps ops) :=
  Quiet.emitOps reportsQuiet s ops

theorem reports_endScope : Reports s s.endScope := Quiet.endScope reportsQuiet s

theorem reports_addLocal (name : String) : Reports s (s.addLocal name) :=
  Quiet.addLocal reportsQuiet s name

theorem reports_declareVariable : Reports s s.declareVariable :=
  Quiet.declareVariable reportsQuiet s

theorem reports_markInitialized : Reports s s.markInitialized :=
  Quiet.markInitialized reportsQuiet s

theorem reports_popLoop : Reports s s.popLoop := Quiet.popLoop reportsQuiet s

theorem reports_addBreak (position : Nat) : Reports s (s.addBreak position) :=
  Quiet.addBreak reportsQuiet s position

theorem reports_discardLoopLocals (loop : Loop) : Reports s (s.discardLoopLocals loop) :=
  Quiet.emitPops reportsQuiet s _

theorem reports_parseVariable (c : Complaint) : Reports s (s.parseVariable c).1 := by
  have declared := (reports_consume s .identifier c).trans (reports_declareVariable _)
  simp only [parseVariable]
  split
  · exact declared
  · exact declared.trans (reports_constant _ _)

theorem reports_defineVariable (global : UInt8) : Reports s (s.defineVariable global) :=
  Quiet.defineVariable reportsQuiet s global

theorem reports_closeRoutine : Reports s s.closeRoutine := Quiet.closeRoutine reportsQuiet s

theorem reports_parameters (fuel : Nat) : Reports s (parameters fuel s) :=
  Quiet.parameters reportsQuiet s fuel

end Clauses

theorem expressionReports (fuel : Nat) : ExpressionKeeps Reports fuel :=
  Quiet.expressionKeeps reportsQuiet fuel

theorem statementReports (fuel : Nat) : StatementKeeps Reports fuel :=
  Stable.statementKeeps reportsStable fuel

section Sentences

variable (fuel : Nat) (s : Compiler)

theorem reports_expression : Reports s (expression fuel s) := Quiet.expression reportsQuiet fuel s

theorem reports_printStatement : Reports s (printStatement fuel s) :=
  Quiet.printStatement reportsQuiet fuel s

theorem reports_varDeclaration : Reports s (varDeclaration fuel s) :=
  Quiet.varDeclaration reportsQuiet fuel s

theorem reports_breakStatement : Reports s s.breakStatement := Quiet.breakStatement reportsQuiet s

theorem reports_continueStatement : Reports s s.continueStatement :=
  Quiet.continueStatement reportsQuiet s

theorem reports_returnStatement : Reports s (returnStatement fuel s) :=
  Quiet.returnStatement reportsQuiet fuel s

theorem reports_forCondition : Reports s (forCondition fuel s).1 :=
  Quiet.forCondition reportsQuiet fuel s

theorem reports_forIncrement (start : Nat) : Reports s (forIncrement fuel start s).1 :=
  Quiet.forIncrement reportsQuiet fuel s start

theorem reports_declarations : Reports s (declarations fuel s) :=
  Stable.declarations reportsStable fuel s

end Sentences

end Reckoner.Compiler
