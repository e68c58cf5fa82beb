import Reckoner.Proofs.Compiler.Breaks
import Reckoner.Proofs.Script.Legality

/-!
When the compiler reports nothing. As long as it has not, its state is known from the tokens read so
far, so that each step can be judged: it reports nothing if and only if some condition holds, and
the state after it is known again.
-/

namespace Reckoner.Compiler

open Script

/-- What is known of a state in which nothing has been reported. -/
structure View where
  tokens : List Token
  locals : List Local
  depth : Nat
  loops : List Loop
  created : Nat
  enclosing : List Draft
  identity : Identity
  arity : Int
  entries : List Script.Entry
  here : Nat

namespace View

def scope (v : View) : List String := scopeOf v.locals

def after (v : View) (rest : List Token) (new : List Script.Entry) (size : Nat) : View :=
  { v with tokens := rest, entries := gather v.entries new, here := v.here + size }

def overOne (v : View) (rest : List Token) (e : Expression) : View :=
  v.after rest (e.entries v.scope) (codeSize (e.code #[] v.scope))

theorem after_eq {v : View} {rest : List Token} {new : List Script.Entry} {size here : Nat}
    (behind : here = v.here + size) :
    { v with tokens := rest, entries := gather v.entries new, here } = v.after rest new size := by
  rw [behind]
  rfl

theorem after_after (v : View) (ts us : List Token) (a b : List Script.Entry) (m n : Nat) :
    (v.after ts a m).after us b n = v.after us (a ++ b) (m + n) := by
  simp only [after, gather_append, Nat.add_assoc]

end View

/-- A state without diagnostics is as the view says, and no stray character is ahead. -/
structure Poised (s : Compiler) (v : View) : Prop where
  clean : s.diagnostics = #[]
  audible : s.silent = false
  stream : s.stream = v.tokens
  closed : Closed v.tokens
  plain : ∀ t ∈ v.tokens, t.kind ≠ .error
  locals : s.draft.locals = v.locals
  room : v.locals.length ≤ maxLocals
  depth : s.draft.depth = v.depth
  loops : s.draft.loops = v.loops
  created : s.created = v.created
  enclosing : s.enclosing = v.enclosing
  identity : s.draft.routine.identity = v.identity
  unit : s.unit = v.identity.unit
  arity : s.draft.routine.arity = v.arity
  holds : s.pool.Holds v.entries
  few : v.entries.length ≤ maxConstants
  numbered : ∀ i, .function i ∈ v.entries → i < v.created
  here : s.here = v.here

/-- A step reports nothing if and only if the condition holds, and then the view is right. -/
structure Verdict (t : Compiler) (p : Prop) (v : View) : Prop where
  clean_iff : t.diagnostics = #[] ↔ p
  poised : t.diagnostics = #[] → Poised t v

namespace Verdict

variable {s t u : Compiler} {p q : Prop} {v w : View}

theorem of_poised (poised : Poised t v) : Verdict t True v :=
  ⟨iff_true_intro poised.clean, fun _ => poised⟩

theorem congr (verdict : Verdict t p v) (same : p ↔ q) : Verdict t q v :=
  ⟨verdict.clean_iff.trans same, verdict.poised⟩

theorem and_then (verdict : Verdict t p v) (reports : Reports t u)
    (next : p → Poised t v → Verdict u q w) : Verdict u (p ∧ q) w := by
  constructor
  · constructor
    · intro done
      have clean := reports.clean done
      have holds := verdict.clean_iff.mp clean
      exact ⟨holds, (next holds (verdict.poised clean)).clean_iff.mp done⟩
    · rintro ⟨holds, also⟩
      have clean := verdict.clean_iff.mpr holds
      exact (next holds (verdict.poised clean)).clean_iff.mpr also
  · intro done
    have clean := reports.clean done
    exact (next (verdict.clean_iff.mp clean) (verdict.poised clean)).poised done

theorem step (verdict : Verdict t p v) (reports : Reports t u)
    (next : Poised t v → Poised u w) : Verdict u p w :=
  (verdict.and_then reports fun _ poised => of_poised (next poised)).congr (iff_of_eq (and_true p))

theorem of_fault (audible : s.silent = false) (c : Complaint) (v : View) :
    Verdict (s.fault c) False v :=
  ⟨iff_false_intro (fault_diagnostics_ne audible c),
    fun done => absurd done (fault_diagnostics_ne audible c)⟩

end Verdict

/-! Steps -/

namespace Poised

variable {s : Compiler} {v : View} (poised : Poised s v)

include poised

theorem current {t : Token} {rest : List Token} (ahead : v.tokens = t :: rest) :
    s.current = t ∧ s.tokens = rest := by
  have stream := poised.stream
  rw [ahead] at stream
  exact List.cons.inj stream

theorem kindAt : Reader.kindAt v.tokens = s.current.kind := by
  rw [← poised.stream]
  rfl

theorem advance {t : Token} {rest : List Token} (ahead : v.tokens = t :: rest)
    (more : t.kind ≠ .eof) :
    Poised s.advance { v with tokens := rest } ∧ s.advance.previous = t := by
  obtain ⟨currentEq, tokensEq⟩ := poised.current ahead
  have closed : Closed rest := by
    have closed := poised.closed
    rw [ahead] at closed
    exact closed.tail more
  have plain : ∀ u ∈ rest, u.kind ≠ .error := fun u member =>
    poised.plain u (by rw [ahead]; exact List.mem_cons_of_mem t member)
  cases rest with
  | nil => exact closed.elim
  | cons u rest =>
      have passed : s.advance = { s with previous := t, tokens := rest, current := u } := by
        rw [Compiler.advance, tokensEq, fetch, if_neg (plain u List.mem_cons_self), currentEq]
      rw [passed]
      exact ⟨{ poised with stream := rfl, closed := closed, plain := plain }, rfl⟩

theorem consume {kind : Kind} {rest : List Token} (c : Complaint) (notEnd : kind ≠ .eof)
    (expected : Reader.expect kind v.tokens = some rest) :
    Poised (s.consume kind c) { v with tokens := rest } ∧
      Reader.kindAt v.tokens = kind ∧ (s.consume kind c).previous = s.current := by
  cases ahead : v.tokens with
  | nil =>
      rw [ahead] at expected
      cases expected
  | cons t ts =>
      rw [ahead, Reader.expect] at expected
      split at expected
      · rename_i matched
        obtain rfl := Option.some.inj expected
        obtain ⟨currentEq, -⟩ := poised.current ahead
        have here : s.check kind = true := by
          rw [check, currentEq, matched]
          exact beq_self_eq_true kind
        obtain ⟨passed, previous⟩ := poised.advance ahead (by rw [matched]; exact notEnd)
        rw [Compiler.consume, if_pos here]
        exact ⟨passed, matched, previous.trans currentEq.symm⟩
      · cases expected

theorem emit (b : UInt8) : Poised (s.emit b) { v with here := v.here + 1 } :=
  { poised with
    stream := poised.stream
    holds := poised.holds
    here := by
      rw [← poised.here]
      exact Array.size_push _ }

theorem emitOp (op : Operation) : Poised (s.emitOp op) { v with here := v.here + 1 } :=
  poised.emit op.byte

theorem emitWith (op : Operation) (operand : UInt8) :
    Poised (s.emitWith op operand) { v with here := v.here + 2 } :=
  (poised.emitOp op).emit operand

theorem emitJump (op : Operation) : Poised (s.emitJump op) { v with here := v.here + 3 } :=
  ((poised.emitOp op).emit 0xff).emit 0xff

theorem emitOps (ops : List Operation) :
    Poised (s.emitOps ops) { v with here := v.here + ops.length } := by
  induction ops generalizing s v with
  | nil => exact poised
  | cons op rest ih =>
      have whole := ih (poised.emitOp op)
      rw [Nat.add_assoc, Nat.add_comm 1] at whole
      exact whole

theorem patchJump (position : Nat) :
    Verdict (s.patchJump position) (v.here - position - 2 ≤ maxJump) v := by
  have distance : s.here - position - 2 = v.here - position - 2 := by rw [poised.here]
  rw [Compiler.patchJump]
  simp only [distance]
  by_cases long : maxJump < v.here - position - 2
  · simp only [if_pos long]
    exact {
      clean_iff := iff_of_false (fault_diagnostics_ne poised.audible _) (Nat.not_le_of_lt long)
      poised := fun done => absurd done (fault_diagnostics_ne poised.audible _) }
  · simp only [if_neg long]
    exact {
      clean_iff := iff_of_true poised.clean (Nat.le_of_not_lt long)
      poised := fun _ => { poised with
        stream := poised.stream
        holds := poised.holds
        here := by
          rw [← poised.here, Compiler.here]
          simp only [Array.size_setIfInBounds]
          rfl } }

theorem emitLoop {start : Nat} (before : start ≤ v.here) :
    Verdict (s.emitLoop start) (v.here + 3 - start ≤ maxJump) { v with here := v.here + 3 } := by
  have opened := poised.emitOp .loop
  have distance : (s.emitOp .loop).here - start + 2 = v.here + 3 - start := by
    rw [opened.here]
    simp only []
    omega
  rw [Compiler.emitLoop]
  simp only [distance]
  by_cases long : maxJump < v.here + 3 - start
  · simp only [if_pos long]
    exact {
      clean_iff := iff_of_false (fault_diagnostics_ne opened.audible _) (Nat.not_le_of_lt long)
      poised := fun done => absurd done (fault_diagnostics_ne opened.audible _) }
  · simp only [if_neg long]
    have written := (opened.emit ((v.here + 3 - start) / 256).toUInt8).emit
      (v.here + 3 - start).toUInt8
    exact {
      clean_iff := iff_of_true written.clean (Nat.le_of_not_lt long)
      poised := fun _ => written }

end Poised

/-! Constants -/

theorem same_entry {a b : Constant} {x y : Script.Entry} (first : Script.Entry.ofConstant? a = some x)
    (second : Script.Entry.ofConstant? b = some y) (plain : ∀ r, b ≠ .routine r) :
    a.same b = x.same y := by
  cases b with
  | number | text =>
      cases a with
      | number | text | routine =>
          obtain rfl := Option.some.inj first
          obtain rfl := Option.some.inj second
          rfl
      | bool | foreign => simp [Script.Entry.ofConstant?] at first
  | routine r => exact absurd rfl (plain r)
  | bool | foreign => simp [Script.Entry.ofConstant?] at second

theorem length_holds {pool : Pool} {es : List Script.Entry} (holds : pool.Holds es) :
    pool.size = es.length := by
  have lengths := congrArg List.length holds
  simpa using lengths

theorem any_holds {pool : Pool} {es : List Script.Entry} (holds : pool.Holds es) {c : Constant} {e : Script.Entry}
    (agree : ∀ old x, old ∈ pool → Script.Entry.ofConstant? old = some x → old.same c = x.same e) :
    pool.any (fun old => old.same c) = es.any fun old => old.same e := by
  rw [← Array.any_toList]
  rw [Pool.Holds] at holds
  have agreeList : ∀ old x, old ∈ pool.toList → Script.Entry.ofConstant? old = some x →
      old.same c = x.same e := fun old x member => agree old x (Array.mem_toList_iff.mp member)
  generalize pool.toList = constants at holds agreeList
  induction constants generalizing es with
  | nil =>
      cases es with
      | nil => rfl
      | cons x rest => exact absurd holds nofun
  | cons old constants ih =>
      cases es with
      | nil => exact absurd holds nofun
      | cons x rest =>
          rw [List.map_cons, List.map_cons] at holds
          obtain ⟨first, others⟩ := List.cons.inj holds
          rw [List.any_cons, List.any_cons, agreeList old x List.mem_cons_self first,
            ih others fun _ _ member => agreeList _ _ (List.mem_cons_of_mem _ member)]

theorem holds_push {pool : Pool} {es : List Script.Entry} (holds : pool.Holds es) {c : Constant} {e : Script.Entry}
    (known : Script.Entry.ofConstant? c = some e) : Pool.Holds (pool.push c) (es ++ [e]) := by
  rw [Pool.Holds] at holds ⊢
  rw [Array.toList_push, List.map_append, List.map_append, holds, List.map_singleton,
    List.map_singleton, known]

theorem Poised.constant_of_agree {s : Compiler} {v : View} (poised : Poised s v) {c : Constant}
    {e : Script.Entry} (known : Script.Entry.ofConstant? c = some e)
    (agree : ∀ old x, old ∈ s.pool → Script.Entry.ofConstant? old = some x → old.same c = x.same e)
    (numbered : ∀ i, e = .function i → i < v.created) :
    Verdict (s.constant c).1 ((keep v.entries e).length ≤ maxConstants)
      { v with entries := keep v.entries e } := by
  have present := any_holds poised.holds agree
  have size := length_holds poised.holds
  rw [constant, Routine.addConstant]
  cases found : s.draft.routine.constants.findIdx? (fun old => old.same c) with
  | some i =>
      obtain ⟨bound, -⟩ := Array.findIdx?_eq_some_iff_findIdx_eq.mp found
      have isThere : v.entries.any (fun old => old.same e) = true := by
        rw [← present, pool, ← Array.findIdx?_isSome, found]
        rfl
      have small : ¬ maxConstants ≤ i := by
        have few := poised.few
        have inPool : i < s.pool.size := bound
        omega
      simp only [keep, if_pos isThere]
      rw [if_neg small]
      exact {
        clean_iff := iff_of_true poised.clean poised.few
        poised := fun _ => { poised with stream := poised.stream, holds := poised.holds } }
  | none =>
      have missing : ¬ v.entries.any (fun old => old.same e) = true := by
        rw [← present]
        have none := congrArg Option.isSome found
        rw [Array.findIdx?_isSome] at none
        rw [pool, none]
        exact Bool.false_ne_true
      have position : s.draft.routine.constants.size = v.entries.length := size
      simp only [keep, if_neg missing, position, List.length_append, List.length_singleton]
      by_cases full : maxConstants ≤ v.entries.length
      · rw [if_pos full]
        exact {
          clean_iff := iff_of_false
            (fault_diagnostics_ne (s := s.withPool (s.pool.push c)) poised.audible _)
            (Nat.not_le_of_lt (Nat.lt_succ_of_le full))
          poised := fun done => absurd done
            (fault_diagnostics_ne (s := s.withPool (s.pool.push c)) poised.audible _) }
      · rw [if_neg full]
        have few : (v.entries ++ [e]).length ≤ maxConstants := by
          rw [List.length_append, List.length_singleton]
          omega
        exact {
          clean_iff := iff_of_true poised.clean (by omega)
          poised := fun _ => { poised with
            stream := poised.stream
            holds := holds_push poised.holds known
            few := few
            numbered := by
              intro i member
              rcases List.mem_append.mp member with old | new
              · exact poised.numbered i old
              · exact numbered i (List.mem_singleton.mp new).symm } }

theorem Poised.constant {s : Compiler} {v : View} (poised : Poised s v) {c : Constant} {e : Script.Entry}
    (known : Script.Entry.ofConstant? c = some e) (plain : ∀ r, c ≠ .routine r) :
    Verdict (s.constant c).1 ((keep v.entries e).length ≤ maxConstants)
      { v with entries := keep v.entries e } := by
  refine poised.constant_of_agree known (fun _ _ _ first => same_entry first known plain) ?_
  rintro i rfl
  cases c with
  | routine r => exact absurd rfl (plain r)
  | _ => simp [Script.Entry.ofConstant?] at known

end Reckoner.Compiler
