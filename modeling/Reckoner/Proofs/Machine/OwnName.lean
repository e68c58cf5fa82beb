import Reckoner.Proofs.Machine.Meaning
import Reckoner.Proofs.Script.Accesses

/-!
What a function sees of itself. The slot of a call that holds the callee is never read or written, so a
function that calls itself does so through whatever global has its name.
-/

namespace Reckoner

/-- No instruction of compiled code reads or writes slot zero, so a function that uses its own name
finds whatever global has the name. -/
theorem callee_out_of_reach {unit : Nat} {source : List UInt8} {r : Routine}
    (accepted : compileBytes unit source = .ok r ∨ compileExpressionBytes unit source = .ok r) :
    ∀ q, r.Nested q → ∀ i ∈ q.instructions.1, ∀ op, Operation.ofByte? i.byte = some op →
      op.operand = .slot → ∃ slot, i.operand = some slot ∧ 1 ≤ slot := by
  intro q nested i member op known accesses
  obtain ⟨unit, isGlobal, f, implements⟩ :=
    Routine.Compiled.implements ⟨unit, source, r, accepted, nested⟩
  obtain ⟨marked, carries⟩ := implements.carries
  obtain ⟨d, inside, rfl, operand⟩ := carries.directive_of_mem member known
  have tame := f.code_tame q.constants (Script.namesOf false f.body) unit isGlobal
    fun _ name member => member
  refine ⟨d.operand, operand ?_, (tame d inside).1 accesses⟩
  rw [accesses]
  decide

/-- A function with a parameter, which stands in the first slot above the callee. -/
theorem callee_out_of_reach_parameter :
    ∃ r, compile 0 "fn f(x) = x + f(x);" = .ok r ∧
      ∀ q, r.Nested q → ∀ i ∈ q.instructions.1, ∀ op, Operation.ofByte? i.byte = some op →
        op.operand = .slot → ∃ slot, i.operand = some slot ∧ 1 ≤ slot := by
  obtain ⟨r, compiled⟩ := exists_ok (show (compile 0
    "fn f(x) = x + f(x);").toOption.isSome = true by with_unfolding_all rfl)
  exact ⟨r, compiled, callee_out_of_reach (.inl compiled)⟩

/-- A function that calls itself finds itself if it is declared outside all blocks, and not if it is
declared in the block that calls it. -/
theorem recursion_only_through_globals :
    let m := Machine.new 0 ⟨0, 0⟩
    (∃ r f after, compile 0 "{ fn f(n) { if n < 1: return 0; return f(n - 1); } print f(2); }" = .ok r ∧
      m.interpret Host.standard 100 r = .fault f after ∧
      f.message = "Undefined variable 'f'" ∧ after.textOn .out = "") ∧
    ∃ r after, compile 0 "fn g(n) { if n < 1: return 0; return g(n - 1); } { print g(2); }" = .ok r ∧
      m.interpret Host.standard 100 r = .done () after ∧ after.textOn .out = "0\n" := by
  intro m
  constructor
  · obtain ⟨r, f, after, compiled, fault, said⟩ := exists_fault (show
      ((compile 0 "{ fn f(n) { if n < 1: return 0; return f(n - 1); } print f(2); }").toOption.any
        fun r => (m.interpret Host.standard 100 r).faults fun f after =>
          f.message == "Undefined variable 'f'" && after.textOn .out == "") = true by
      decide +kernel)
    rw [Bool.and_eq_true, beq_iff_eq, beq_iff_eq] at said
    exact ⟨r, f, after, compiled, fault, said⟩
  · obtain ⟨r, after, compiled, done, output⟩ := exists_done (show
      ((compile 0 "fn g(n) { if n < 1: return 0; return g(n - 1); } { print g(2); }").toOption.any
        fun r => (m.interpret Host.standard 100 r).passes fun after =>
          after.textOn .out == "0\n") = true by decide +kernel)
    exact ⟨r, after, compiled, done, eq_of_beq output⟩

end Reckoner
