import Reckoner.Proofs.Code.Flow
import Reckoner.Proofs.Script.Joints

/-!
The depths of trees. An expression leaves one value more than it found; a statement leaves the depth
as it was, whichever way it is left.
-/

namespace Reckoner.Script

theorem slotOf_le {name : String} {scope : List String} {slot : Nat}
    (found : slotOf name scope = some slot) : slot ≤ scope.length := by
  induction scope with
  | nil => exact absurd found (by simp [slotOf])
  | cons x rest ih =>
      rw [slotOf] at found
      split at found
      · exact Nat.le_of_eq (Option.some.inj found).symm
      · exact Nat.le_succ_of_le (ih found)

section

variable {pool : Pool} {out : Nat → Nat → Prop} {scope : List String} {p d : Nat}

theorem loadOf_path (name : String) (deep : scope.length < d) :
    Path pool out p [loadOf pool scope name] d (d + 1) := by
  rw [loadOf]
  split
  · rename_i slot found
    exact .loadLocal (Nat.lt_of_le_of_lt (slotOf_le found) deep)
  · exact .plain ⟨name, rfl⟩ (Nat.zero_lt_of_lt deep) (by decide) rfl

theorem storeOf_path (name : String) (deep : scope.length < d) :
    Path pool out p [storeOf pool scope name] (d + 1) (d + 1) := by
  rw [storeOf]
  split
  · rename_i slot found
    exact .assignLocal (Nat.lt_of_le_of_lt (slotOf_le found) deep)
  · exact .plain ⟨name, rfl⟩ (Nat.succ_lt_succ (Nat.zero_lt_of_lt deep)) (by decide) rfl

theorem Operator.path (op : Operator) (positive : 0 < d) :
    Path pool out p op.code (d + 2) (d + 1) := by
  have two : 2 < d + 2 := Nat.lt_add_of_pos_left positive
  have negated : ∀ {o : Operation}, Path pool out p [⟨o, 0⟩] (d + 2) (d + 1) →
      Path pool out p [⟨o, 0⟩, ⟨.not, 0⟩] (d + 2) (d + 1) := fun first =>
    first.append (.plain trivial (Nat.succ_lt_succ positive) (by decide) rfl)
  cases op with
  | notEqual | greaterEqual | lessEqual =>
      exact negated (.plain (by trivial) two (by decide) rfl)
  | _ => exact .plain (by trivial) two (by decide) rfl

mutual

theorem Expression.path (pool : Pool) (out : Nat → Nat → Prop) {scope : List String} {p d : Nat}
    (deep : scope.length < d) (e : Expression) :
    Path pool out p (e.code pool scope) d (d + 1) := by
  have positive := Nat.zero_lt_of_lt deep
  have deeper := Nat.lt_succ_of_lt deep
  cases e with
  | number n =>
      exact .plain (.inl ⟨n, rfl⟩) positive (by decide) rfl
  | bool b =>
      rw [Expression.code]
      split <;> exact .plain trivial positive (by decide) rfl
  | read name => exact loadOf_path name deep
  | assign name e => exact (e.path pool out deep).append (storeOf_path name deep)
  | update name op e =>
      exact (loadOf_path name deep).append
        (((e.path pool out deeper).append (op.path positive)).append (storeOf_path name deep))
  | negate e =>
      exact (e.path pool out deep).append
        (.plain trivial (Nat.succ_lt_succ positive) (by decide) rfl)
  | not e =>
      exact (e.path pool out deep).append
        (.plain trivial (Nat.succ_lt_succ positive) (by decide) rfl)
  | binary op a b =>
      exact ((a.path pool out deep).append (b.path pool out deeper)).append (op.path positive)
  | and a b =>
      have right : ∀ q, Path pool out q (⟨.pop, 0⟩ :: b.code pool scope) (d + 1) (d + 1) :=
        fun q => (Path.pop positive).append (b.path pool out deep)
      have rest := (right (p + codeSize (a.code pool scope) + 3)).skip (Nat.succ_lt_succ positive)
      rw [show codeSize (⟨.pop, 0⟩ :: b.code pool scope) = codeSize (b.code pool scope) + 1 from
        Nat.add_comm ..] at rest
      exact (a.path pool out deep).append rest
  | or a b =>
      have right : ∀ q, Path pool out q (⟨.pop, 0⟩ :: b.code pool scope) (d + 1) (d + 1) :=
        fun q => (Path.pop positive).append (b.path pool out deep)
      have rest := (Path.nil pool out (p + codeSize (a.code pool scope) + 3) (d + 1)).fork
        (Nat.succ_lt_succ positive) (Nat.succ_pos d) (right _)
      rw [show codeSize (⟨.pop, 0⟩ :: b.code pool scope) = codeSize (b.code pool scope) + 1 from
        Nat.add_comm ..] at rest
      exact (a.path pool out deep).append rest
  | call f args =>
      refine ((f.path pool out deep).append (codeOfAll_path pool out deeper args)).append ?_
      refine .plain trivial ?_ (by decide) ?_
      · show args.length + 1 < _
        omega
      · show d + 1 + args.length - (args.length + 1) + 1 = d + 1
        omega

theorem codeOfAll_path (pool : Pool) (out : Nat → Nat → Prop) {scope : List String} {p d : Nat}
    (deep : scope.length < d) (args : List Expression) :
    Path pool out p (codeOfAll pool scope args) d (d + args.length) := by
  cases args with
  | nil => exact .nil ..
  | cons e rest =>
      have whole := (e.path pool out (p := p) deep).append
        (codeOfAll_path pool out (Nat.lt_succ_of_lt deep) rest)
      rw [Nat.succ_add] at whole
      exact whole

end

theorem codeOfOptional_path (value : Option Expression) (deep : scope.length < d) :
    Path pool out p (codeOfOptional pool scope value) d (d + 1) := by
  cases value with
  | none => exact .plain trivial (Nat.zero_lt_of_lt deep) (by decide) rfl
  | some e => exact e.path pool out deep

theorem popCode_path (n : Nat) (positive : 0 < d) : Path pool out p (popCode n) (d + n) d := by
  match n with
  | 0 => exact .nil ..
  | 1 => exact .pop positive
  | n + 2 =>
      refine .plain trivial ?_ (by decide) ?_
      · show n + 2 < d + (n + 2)
        omega
      · show d + (n + 2) - (n + 2) + 0 = d
        omega

def Known (joints : List Joint) (q c : Nat) : Prop :=
  ∃ joint ∈ joints, q = joint.offset ∧ c = joint.scope.length + 1

theorem known_append {a b : List Joint} {q c : Nat} :
    Known (a ++ b) q c ↔ Known a q c ∨ Known b q c := by
  simp only [Known, List.mem_append, or_and_right, exists_or]

theorem known_cons {joint : Joint} {rest : List Joint} {q c : Nat} :
    Known (joint :: rest) q c ↔ (q = joint.offset ∧ c = joint.scope.length + 1) ∨ Known rest q c := by
  simp only [Known, List.mem_cons, or_and_right, exists_or, exists_eq_left]

theorem Trail.framed {joints : List Joint} {code : List Directive} {n : Nat}
    (trail : Trail pool out (Known joints) p code (scope.length + 1) (scope.length + 1))
    (size : codeSize code = n) :
    Trail pool out (Known (⟨p, scope⟩ :: ⟨p + n, scope⟩ :: joints)) p code (scope.length + 1)
      (scope.length + 1) := by
  refine trail.retain (fun _ _ => .inl) fun q c known => ?_
  rw [known_cons, known_cons] at known
  rcases known with begins | ends | inside
  · exact .inr (.inl begins)
  · rw [← size] at ends
    exact .inr (.inr ends)
  · exact .inl inside

theorem Path.blank {code : List Directive} {e : Nat} (path : Path pool out p code d e) :
    Trail pool out (Known []) p code d e :=
  path.retain (fun _ _ => .inl) fun q c known => by
    obtain ⟨joint, member, -⟩ := known
    exact absurd member List.not_mem_nil

/-- A stretch of `n` bytes inside a loop: where the loop goes on and where it ends has the depth of
the locals around it. Outside all loops there is nothing to know. -/
def Inside (out : Nat → Nat → Prop) (scope : List String) (loop : Option LoopSite)
    (target p n : Nat) : Prop :=
  ∀ site ∈ loop, site.height ≤ scope.length ∧ site.start ≤ p ∧ p + n ≤ target ∧
    out site.start (site.height + 1) ∧ out target (site.height + 1)

theorem Inside.narrow {loop : Option LoopSite} {inner : List String} {target q n m : Nat}
    (inside : Inside out scope loop target p n) (larger : scope.length ≤ inner.length)
    (after : p ≤ q) (before : q + m ≤ p + n) : Inside out inner loop target q m := by
  intro site member
  obtain ⟨height, start, ends, again, leave⟩ := inside site member
  exact ⟨Nat.le_trans height larger, Nat.le_trans start after, Nat.le_trans before ends, again, leave⟩

theorem stepCode_trail {test : Nat} (step : Option Expression) (deep : scope.length < d)
    (before : test ≤ p) (again : out test d)
    (body : out (p + codeSize (stepCode pool scope p test step)) d) :
    Trail pool out (fun q c => step.isSome ∧ q = stepStart p test step ∧ c = d) p
      (stepCode pool scope p test step) d d := by
  have positive := Nat.zero_lt_of_lt deep
  cases step with
  | none => exact ⟨[], rfl, ⟨rfl, rfl⟩, fun q c known => absurd known.1 (by simp), trivial⟩
  | some e =>
      have sizes : codeSize (stepCode pool scope p test (some e)) =
          3 + codeSize (e.code pool scope) + 4 := by
        simp only [stepCode, codeSize, codeSize_append, loopBack, Directive.size, Operation.operand,
          Operand.width]
        omega
      rw [sizes] at body
      have across : Path pool out p [⟨.jump, codeSize (e.code pool scope) + 4⟩] d d :=
        .jump positive (by rwa [show p + 3 + (codeSize (e.code pool scope) + 4) =
          p + (3 + codeSize (e.code pool scope) + 4) by omega])
      have value : Path pool out (p + 3) (e.code pool scope ++ [⟨.pop, 0⟩]) d d :=
        (e.path pool out deep).append (.pop positive)
      have place : p + 3 + codeSize (e.code pool scope ++ [⟨.pop, 0⟩]) =
          p + codeSize (e.code pool scope) + 4 := by
        simp only [codeSize_append, codeSize, Directive.size, Operation.operand, Operand.width]
        omega
      have back : Path pool out (p + 3 + codeSize (e.code pool scope ++ [⟨.pop, 0⟩]))
          [loopBack (p + codeSize (e.code pool scope) + 4) test] d d := by
        rw [place]
        exact .loopBack positive (by omega) again
      have whole := Trail.append across (value.append back)
      obtain ⟨marks, same, entry, inner, sound⟩ := whole
      refine ⟨marks, by rw [same, stepCode]; simp, entry, ?_, sound⟩
      rintro q c ⟨-, rfl, rfl⟩
      exact inner _ _ (.inr (.inr ⟨rfl, rfl⟩))

theorem testCode_path {n : Nat} (test : Option Expression) (deep : scope.length < d)
    (leaves : test.isSome → out (p + codeSize (testCode pool scope 0 test) + n) (d + 1)) :
    Path pool out p (testCode pool scope (n + 1) test) d d := by
  have positive := Nat.zero_lt_of_lt deep
  cases test with
  | none => exact .nil ..
  | some e =>
      have sizes : codeSize (testCode pool scope 0 (some e)) = codeSize (e.code pool scope) + 4 := by
        simp only [testCode, codeSize, codeSize_append, Directive.size, Operation.operand,
          Operand.width]
      have leads := leaves rfl
      rw [sizes, show p + (codeSize (e.code pool scope) + 4) + n =
        p + codeSize (e.code pool scope) + 3 + (n + 1) by omega] at leads
      have branch : Path pool out (p + codeSize (e.code pool scope)) [⟨.jumpIfFalse, n + 1⟩] (d + 1)
          (d + 1) := .branch (Nat.succ_lt_succ positive) leads
      exact (e.path pool out deep).append (branch.append (.pop positive))

def closingDepth (test : Option Expression) (d : Nat) : Nat := if test.isSome then d + 1 else d

theorem closingCode_path (test : Option Expression) (positive : 0 < d) :
    Path pool out p (closingCode test) (closingDepth test d) d := by
  cases test with
  | none => exact .nil ..
  | some e => exact .pop positive

theorem loopCode_trail {test step : Option Expression} {body : LoopSite → Nat → List Slot}
    {joints : LoopSite → Nat → List Joint}
    (trails : ∀ {known : Nat → Nat → Prop} {site : LoopSite} {q target : Nat},
      Inside known scope (some site) target q (slotsSize (body site q)) →
      Trail pool known (Known (joints site q)) q (resolveFrom target q (body site q))
        (scope.length + 1) (scope.length + 1)) :
    Trail pool out (Known (loopJoints pool scope p test step
        (codeSize (loopCode pool scope p test step body)) joints)) p
      (loopCode pool scope p test step body) (scope.length + 1) (scope.length + 1) := by
  have deep : scope.length < scope.length + 1 := Nat.lt_succ_self _
  rw [loopJoints, loopCode]
  generalize clauseEq : p + codeSize (testCode pool scope 0 test) = clause
  generalize incrementEq : stepCode pool scope clause p step = increment
  generalize startEq : clause + codeSize increment = start
  generalize againEq : stepStart clause p step = again
  generalize slotsEq : body ⟨again, scope.length⟩ start = slots
  generalize targetEq : start + slotsSize slots + 3 + codeSize (closingCode test) = target
  generalize depthEq : scope.length + 1 = d at *
  have positive : 0 < d := by omega
  have againLe : again ≤ start := by
    rw [← againEq, ← startEq, ← incrementEq]
    exact stepStart_le pool scope (by omega) step
  let known := fun q c => out q c ∨ (q = p ∧ c = d) ∨ (q = again ∧ c = d) ∨ (q = start ∧ c = d) ∨
    (q = start + slotsSize slots + 3 ∧ c = closingDepth test d) ∨ (q = target ∧ c = d)
  generalize testEq : testCode pool scope (codeSize increment + slotsSize slots + 4) test = first
  have firstSize : p + codeSize first = clause := by
    rw [← testEq, ← clauseEq, codeSize_testCode _ _ _ 0]
  have one : Path pool known p first d d := by
    rw [← testEq]
    refine testCode_path test deep fun tested => ?_
    rw [clauseEq]
    refine .inr (.inr (.inr (.inr (.inl ⟨by omega, ?_⟩))))
    rw [closingDepth, if_pos tested]
  have two : Trail pool known (fun q c => step.isSome ∧ q = again ∧ c = d) (p + codeSize first)
      increment d d := by
    rw [firstSize, ← incrementEq, ← againEq]
    refine stepCode_trail step deep (by omega) (.inr (.inl ⟨rfl, rfl⟩)) ?_
    rw [incrementEq, startEq]
    exact .inr (.inr (.inr (.inl ⟨rfl, rfl⟩)))
  have place : p + codeSize (first ++ increment) = start := by
    rw [codeSize_append]
    omega
  have three : Trail pool known (Known (joints ⟨again, scope.length⟩ start))
      (p + codeSize (first ++ increment)) (resolveFrom target start slots) d d := by
    rw [place, ← slotsEq]
    refine trails fun site member => ?_
    obtain rfl := Option.some.inj member
    rw [slotsEq]
    exact ⟨Nat.le_refl _, againLe, by omega, .inr (.inr (.inl ⟨rfl, depthEq⟩)),
      .inr (.inr (.inr (.inr (.inr ⟨rfl, depthEq⟩))))⟩
  have behind : p + codeSize (first ++ increment ++ resolveFrom target start slots) =
      start + slotsSize slots := by
    rw [codeSize_append, codeSize_resolveFrom, ← Nat.add_assoc, place]
  have four : Path pool known
      (p + codeSize (first ++ increment ++ resolveFrom target start slots))
      [loopBack (start + slotsSize slots) again] d (closingDepth test d) := by
    rw [behind]
    exact .loopBack positive (by omega) (.inr (.inr (.inl ⟨rfl, rfl⟩)))
  have whole := Trail.append (Trail.append (Trail.append (Trail.append one two) three) four)
    (closingCode_path test positive)
  have final : p + codeSize (first ++ increment ++ resolveFrom target start slots ++
      [loopBack (start + slotsSize slots) again]) = start + slotsSize slots + 3 := by
    rw [codeSize_append, ← Nat.add_assoc, behind]
    rfl
  rw [← List.append_cons] at whole
  have goesOn : ∀ q, q = again → (step.isSome = true ∧ q = again ∧ d = d) ∨ q = p := by
    rintro _ rfl
    cases stepped : step.isSome with
    | true => exact .inl ⟨rfl, rfl, rfl⟩
    | false =>
        have none : step = none := by simpa using stepped
        rw [← againEq, none]
        exact .inr rfl
  have ends : target = p + codeSize (first ++ increment ++ resolveFrom target start slots ++
      loopBack (start + slotsSize slots) again :: closingCode test) := by
    rw [List.append_cons, codeSize_append, ← Nat.add_assoc, final, targetEq]
  refine whole.retain ?_ ?_
  · rintro q c (outside | ⟨rfl, rfl⟩ | ⟨same, rfl⟩ | ⟨rfl, rfl⟩ | ⟨rfl, rfl⟩ | ⟨rfl, rfl⟩)
    · exact .inl outside
    · exact .inr (.inr (.inl ⟨rfl, rfl⟩))
    · rcases goesOn q same with stepped | begins
      · exact .inr (.inl (.inl (.inl (.inl (.inr (.inl stepped))))))
      · exact .inr (.inr (.inl ⟨begins, rfl⟩))
    · exact .inr (.inl (.inl (.inl (.inr (.inr ⟨place.symm, rfl⟩)))))
    · exact .inr (.inl (.inr (.inr ⟨final.symm, rfl⟩)))
    · exact .inr (.inr (.inr ⟨ends, rfl⟩))
  · intro q c known
    rw [known_cons, known_cons, known_cons, depthEq] at known
    rcases known with begins | ⟨same, rfl⟩ | ended | inside
    · exact .inr (.inl begins)
    · rcases goesOn q same with stepped | begins
      · exact .inl (.inl (.inl (.inl (.inr (.inl stepped)))))
      · exact .inr (.inl ⟨begins, rfl⟩)
    · exact .inr (.inr ended)
    · exact .inl (.inl (.inl (.inr (.inl inside))))

theorem Trail.popped {inner : Nat → Nat → Prop} {code : List Directive} {e : Nat} (positive : 0 < d)
    (trail : Trail pool out inner (p + 1) code d e) :
    Trail pool out inner p (⟨.pop, 0⟩ :: code) (d + 1) e :=
  (Trail.append (Path.pop positive) trail).retain (fun _ _ => .inl) fun _ _ inside =>
    .inl (.inr (.inl inside))

theorem choice_trail {test : List Directive} {a b : List Slot} {target : Nat}
    {first second : List Joint} (positive : 0 < d) (tests : Path pool out p test d (d + 1))
    (consequent : Trail pool out (Known first) (p + codeSize test + 4)
      (resolveFrom target (p + codeSize test + 4) a) d d)
    (alternative : Trail pool out (Known second) (p + codeSize test + 4 + slotsSize a + 4)
      (resolveFrom target (p + codeSize test + 4 + slotsSize a + 4) b) d d) :
    Trail pool out (Known (first ++ second)) p (resolveFrom target p
      (fixedSlots (test ++ [⟨.jumpIfFalse, slotsSize a + 4⟩, ⟨.pop, 0⟩]) ++ a
        ++ fixedSlots [⟨.jump, slotsSize b + 1⟩, ⟨.pop, 0⟩] ++ b)) d d := by
  have sizeA : codeSize (⟨.pop, 0⟩ :: resolveFrom target (p + codeSize test + 4) a) =
      slotsSize a + 1 := by
    rw [codeSize, codeSize_resolveFrom, Nat.add_comm]
    rfl
  have sizeB : codeSize (⟨.pop, 0⟩ ::
      resolveFrom target (p + codeSize test + 4 + slotsSize a + 4) b) = slotsSize b + 1 := by
    rw [codeSize, codeSize_resolveFrom, Nat.add_comm]
    rfl
  have yes : Trail pool out (Known first) (p + codeSize test + 3)
      (⟨.pop, 0⟩ :: resolveFrom target (p + codeSize test + 4) a) (d + 1) d := consequent.popped positive
  have no : Trail pool out (Known second) (p + codeSize test + 3 + (slotsSize a + 1) + 3)
      (⟨.pop, 0⟩ :: resolveFrom target (p + codeSize test + 4 + slotsSize a + 4) b) (d + 1) d := by
    refine Trail.popped positive ?_
    rwa [show p + codeSize test + 3 + (slotsSize a + 1) + 3 + 1 =
      p + codeSize test + 4 + slotsSize a + 4 by omega]
  rw [← sizeA] at no
  have whole := Trail.append tests (Trail.fork (Nat.succ_lt_succ positive) positive yes no)
  rw [sizeA, sizeB] at whole
  have firstSize : p + slotsSize (fixedSlots (test ++ [⟨.jumpIfFalse, slotsSize a + 4⟩, ⟨.pop, 0⟩])) =
      p + codeSize test + 4 := by
    rw [slotsSize_fixedSlots, codeSize_append, ← Nat.add_assoc]
    rfl
  have secondSize : p + slotsSize (fixedSlots (test ++ [⟨.jumpIfFalse, slotsSize a + 4⟩, ⟨.pop, 0⟩])
      ++ a ++ fixedSlots [⟨.jump, slotsSize b + 1⟩, ⟨.pop, 0⟩]) =
        p + codeSize test + 4 + slotsSize a + 4 := by
    rw [slotsSize_append, slotsSize_append, ← Nat.add_assoc, ← Nat.add_assoc, firstSize,
      slotsSize_fixedSlots]
    rfl
  rw [resolveFrom_append, resolveFrom_append, resolveFrom_append, firstSize, secondSize,
    resolveFrom_fixedSlots, resolveFrom_fixedSlots]
  have layout := whole.retain (fun _ _ => .inl) fun q c known => by
    rcases known_append.mp known with inside | inside
    · exact .inl (.inr (.inl (.inl inside)))
    · exact .inl (.inr (.inl (.inr inside)))
  simpa using layout

theorem discard_path {height : Nat} (bound : height ≤ scope.length) :
    Path pool out p (popCode (scope.length - height)) (scope.length + 1) (height + 1) := by
  have pops : Path pool out p (popCode (scope.length - height))
      (height + 1 + (scope.length - height)) (height + 1) := popCode_path _ (Nat.succ_pos _)
  rwa [show height + 1 + (scope.length - height) = scope.length + 1 by omega] at pops

theorem closeScope_path (names : List String) :
    Path pool out p (popCode names.length) ((names ++ scope).length + 1) (scope.length + 1) := by
  have pops : Path pool out p (popCode names.length) (scope.length + 1 + names.length)
      (scope.length + 1) := popCode_path _ (Nat.succ_pos _)
  rwa [show scope.length + 1 + names.length = (names ++ scope).length + 1 by
    rw [List.length_append]; omega] at pops

theorem defineCode_path (isGlobal : Bool) (name : String) (positive : 0 < d) :
    Path pool out p (defineCode pool isGlobal name) (d + 1) (if isGlobal then d else d + 1) := by
  cases isGlobal with
  | false => exact .nil ..
  | true => exact .plain ⟨name, rfl⟩ (Nat.succ_lt_succ positive) (by decide) rfl

theorem Initializer.path (first : Initializer) :
    Path pool out p (first.code pool scope) (scope.length + 1)
      ((first.names ++ scope).length + 1) := by
  have deep : scope.length < scope.length + 1 := Nat.lt_succ_self _
  cases first with
  | none => exact .nil ..
  | var name value => exact codeOfOptional_path value deep
  | expression e => exact (e.path pool out deep).append (.pop (Nat.succ_pos _))

end

mutual

/-- A statement keeps the depth of the locals around it, and its joints have the depth of theirs. -/
theorem Statement.trail (pool : Pool) (unit : Nat) {out : Nat → Nat → Prop} {scope : List String}
    {loop : Option LoopSite} {target p : Nat} (s : Statement)
    (inside : Inside out scope loop target p (slotsSize (s.code pool unit scope loop p))) :
    Trail pool out (Known (s.joints pool unit scope loop p)) p
      (resolveFrom target p (s.code pool unit scope loop p)) (scope.length + 1)
      (scope.length + 1) := by
  have deep : scope.length < scope.length + 1 := Nat.lt_succ_self _
  have positive : 0 < scope.length + 1 := Nat.succ_pos _
  cases s with
  | empty =>
      rw [Statement.joints]
      exact Trail.framed (Path.blank (.nil ..)) (codeSize_resolveFrom ..)
  | print e =>
      rw [Statement.joints]
      refine Trail.framed (Path.blank ?_) (codeSize_resolveFrom ..)
      rw [Statement.code, resolveFrom_fixedSlots]
      exact (e.path pool out deep).append
        (.plain trivial (Nat.succ_lt_succ positive) (by decide) rfl)
  | expression e =>
      rw [Statement.joints]
      refine Trail.framed (Path.blank ?_) (codeSize_resolveFrom ..)
      rw [Statement.code, resolveFrom_fixedSlots]
      exact (e.path pool out deep).append (.pop positive)
  | ifElse c s t =>
      rw [Statement.joints]
      refine Trail.framed ?_ (codeSize_resolveFrom ..)
      rw [Statement.code] at inside ⊢
      refine choice_trail positive (c.path pool out deep) (s.trail pool unit ?_) (t.trail pool unit ?_)
      all_goals
        refine inside.narrow (Nat.le_refl _) (by omega) ?_
        simp only [slotsSize_append, slotsSize_fixedSlots, codeSize_append, codeSize,
          Directive.size, Operation.operand, Operand.width]
        omega
  | «while» c s =>
      rw [Statement.joints]
      refine Trail.framed ?_ (codeSize_resolveFrom ..)
      rw [Statement.code, resolveFrom_fixedSlots]
      exact loopCode_trail fun inside => s.trail pool unit inside
  | «for» first c step s =>
      rw [Statement.joints]
      refine Trail.framed ?_ (codeSize_resolveFrom ..)
      rw [Statement.code, resolveFrom_fixedSlots]
      have opening : Path pool out p (first.code pool scope) _ _ := first.path
      have loop : Trail pool out _ (p + codeSize (first.code pool scope)) (loopCode pool
          (first.names ++ scope) (p + codeSize (first.code pool scope)) c step fun site p =>
            s.code pool unit (first.names ++ scope) (some site) p)
          ((first.names ++ scope).length + 1) ((first.names ++ scope).length + 1) :=
        loopCode_trail fun inside => s.trail pool unit inside
      have whole := Trail.append (Trail.append opening loop) (closeScope_path first.names)
      exact whole.retain (fun _ _ => .inl) fun _ _ inside => .inl (.inl (.inr (.inl inside)))
  | «break» =>
      rw [Statement.joints]
      refine Trail.framed (Path.blank ?_) (codeSize_resolveFrom ..)
      cases loop with
      | none => exact .nil ..
      | some site =>
          obtain ⟨height, -, ends, -, leave⟩ := inside site rfl
          rw [Statement.code] at ends ⊢
          simp only [slotsSize_append, slotsSize_fixedSlots] at ends
          rw [resolveFrom_append, resolveFrom_fixedSlots, slotsSize_fixedSlots]
          refine (discard_path height).append (.jump (Nat.succ_pos _) ?_)
          have room : p + codeSize (popCode (scope.length - site.height)) + 3 ≤ target := by
            rw [Nat.add_assoc]
            exact ends
          rwa [Nat.add_sub_cancel' room]
  | «continue» =>
      rw [Statement.joints]
      refine Trail.framed (Path.blank ?_) (codeSize_resolveFrom ..)
      cases loop with
      | none => exact .nil ..
      | some site =>
          obtain ⟨height, start, -, again, -⟩ := inside site rfl
          rw [Statement.code, resolveFrom_fixedSlots]
          exact (discard_path height).append (.loopBack (Nat.succ_pos _) (by omega) again)
  | «return» value =>
      rw [Statement.joints]
      refine Trail.framed (Path.blank ?_) (codeSize_resolveFrom ..)
      rw [Statement.code, resolveFrom_fixedSlots]
      exact (codeOfOptional_path value deep).append (.final (Nat.succ_lt_succ positive))
  | block body =>
      rw [Statement.joints]
      refine Trail.framed ?_ (codeSize_resolveFrom ..)
      rw [Statement.code] at inside ⊢
      rw [resolveFrom_append, resolveFrom_fixedSlots]
      rw [slotsSize_append] at inside
      have nested : Inside out scope loop target p
          (slotsSize (codeOfBody pool unit false scope loop p body)) :=
        inside.narrow (Nat.le_refl _) (Nat.le_refl _) (by omega)
      have whole := Trail.append (codeOfBody_trail pool unit body nested) (closeScope_path _)
      exact whole.retain (fun _ _ => .inl) fun _ _ inside => .inl (.inl inside)

theorem Declaration.trail (pool : Pool) (unit : Nat) {out : Nat → Nat → Prop} {scope : List String}
    {loop : Option LoopSite} {target p : Nat} {isGlobal : Bool} (d : Declaration)
    (inside : Inside out scope loop target p (slotsSize (d.code pool unit isGlobal scope loop p))) :
    Trail pool out (Known (d.joints pool unit scope loop p)) p
      (resolveFrom target p (d.code pool unit isGlobal scope loop p))
      (scope.length + 1) ((d.names isGlobal ++ scope).length + 1) := by
  have deep : scope.length < scope.length + 1 := Nat.lt_succ_self _
  have positive : 0 < scope.length + 1 := Nat.succ_pos _
  cases d with
  | var name value =>
      rw [Declaration.joints]
      refine Path.blank ?_
      rw [Declaration.code, resolveFrom_fixedSlots]
      refine (codeOfOptional_path value deep).append ?_
      have defined : Path pool out (p + codeSize (codeOfOptional pool scope value)) _ _ _ :=
        defineCode_path isGlobal name positive
      cases isGlobal <;> exact defined
  | function f =>
      rw [Declaration.joints]
      refine Path.blank ?_
      rw [Declaration.code, resolveFrom_fixedSlots]
      have loaded : Path pool out p [⟨.constant, pool.findRoutine ⟨unit, f.index⟩⟩]
          (scope.length + 1) (scope.length + 1 + 1) :=
        .plain (.inr ⟨_, rfl⟩) positive (by decide) rfl
      refine loaded.append ?_
      have defined : Path pool out (p + 2) _ _ _ := defineCode_path isGlobal f.name positive
      cases isGlobal <;> exact defined
  | statement s => exact s.trail pool unit inside

theorem codeOfBody_trail (pool : Pool) (unit : Nat) {out : Nat → Nat → Prop} {scope : List String}
    {loop : Option LoopSite} {target p : Nat} {isGlobal : Bool} (body : List Declaration)
    (inside : Inside out scope loop target p
      (slotsSize (codeOfBody pool unit isGlobal scope loop p body))) :
    Trail pool out (Known (jointsOf pool unit isGlobal scope loop p body)) p
      (resolveFrom target p (codeOfBody pool unit isGlobal scope loop p body))
      (scope.length + 1) ((namesOf isGlobal body ++ scope).length + 1) := by
  cases body with
  | nil =>
      rw [jointsOf]
      refine (Path.nil pool out p _).retain (fun _ _ => .inl) fun q c known => ?_
      exact (known_cons.mp known).elim (fun begins => .inr (.inl begins)) fun none => absurd none nofun
  | cons d rest =>
      rw [codeOfBody] at inside ⊢
      rw [slotsSize_append] at inside
      rw [resolveFrom_append, namesOf, List.append_assoc, jointsOf]
      have within : Inside out scope loop target p
          (slotsSize (d.code pool unit isGlobal scope loop p)) :=
        inside.narrow (Nat.le_refl _) (Nat.le_refl _) (by omega)
      have first := d.trail pool unit within
      generalize behindEq : p + slotsSize (d.code pool unit isGlobal scope loop p) = behind at *
      have nested : Inside out (d.names isGlobal ++ scope) loop target behind (slotsSize
          (codeOfBody pool unit isGlobal (d.names isGlobal ++ scope) loop behind rest)) :=
        inside.narrow (by simp) (by omega) (by omega)
      have others := codeOfBody_trail pool unit rest nested
      rw [← codeSize_resolveFrom target p] at behindEq
      rw [← behindEq] at others ⊢
      refine (Trail.append first others).retain (fun _ _ => .inl) fun q c known => ?_
      rw [known_cons, known_append] at known
      rcases known with begins | inside | inside
      · exact .inr (.inl begins)
      · exact .inl (.inl inside)
      · exact .inl (.inr (.inl inside))

end

mutual

theorem Statement.code_closed (pool : Pool) (unit : Nat) (scope : List String) (p : Nat)
    (s : Statement) : ∃ code, s.code pool unit scope none p = fixedSlots code := by
  cases s with
  | empty | «break» | «continue» => exact ⟨[], rfl⟩
  | ifElse c s t =>
      rw [Statement.code]
      obtain ⟨consequent, equal⟩ := s.code_closed pool unit scope (p + codeSize (c.code pool scope) + 4)
      rw [equal]
      obtain ⟨alternative, same⟩ := t.code_closed pool unit scope
        (p + codeSize (c.code pool scope) + 4 + slotsSize (fixedSlots consequent) + 4)
      rw [same, ← fixedSlots_append, ← fixedSlots_append, ← fixedSlots_append]
      exact ⟨_, rfl⟩
  | block body =>
      rw [Statement.code]
      obtain ⟨code, equal⟩ := codeOfBody_closed pool unit false scope p body
      rw [equal, ← fixedSlots_append]
      exact ⟨_, rfl⟩
  | _ => exact ⟨_, by rw [Statement.code]⟩

theorem codeOfBody_closed (pool : Pool) (unit : Nat) (isGlobal : Bool) (scope : List String)
    (p : Nat) (body : List Declaration) :
    ∃ code, codeOfBody pool unit isGlobal scope none p body = fixedSlots code := by
  cases body with
  | nil => exact ⟨[], rfl⟩
  | cons d rest =>
      obtain ⟨first, equal⟩ : ∃ code, d.code pool unit isGlobal scope none p = fixedSlots code := by
        cases d with
        | var name value => exact ⟨_, by rw [Declaration.code]⟩
        | function f => exact ⟨_, by rw [Declaration.code]⟩
        | statement s => exact s.code_closed pool unit scope p
      rw [codeOfBody, equal]
      obtain ⟨second, same⟩ := codeOfBody_closed pool unit isGlobal (d.names isGlobal ++ scope)
        (p + slotsSize (fixedSlots first)) rest
      rw [same, ← fixedSlots_append]
      exact ⟨_, rfl⟩

end

theorem Function.marks (f : Function) (pool : Pool) (unit : Nat) (isGlobal : Bool) :
    ∃ marks : List (Directive × Nat), marks.map Prod.fst = f.code pool unit isGlobal ∧
      (∃ x, MarkedAt marks 0 x (f.parameters.length + 1)) ∧
      (∀ q c, Known (f.joints pool unit isGlobal) q c → ∃ x, MarkedAt marks q x c) ∧
      ∀ q x c, MarkedAt marks q x c → x.Sound pool (fun q c => ∃ y, MarkedAt marks q y c) q c := by
  obtain ⟨code, equal⟩ := codeOfBody_closed pool unit isGlobal f.scope 0 f.body
  have body : Trail pool (fun _ _ => False) (Known (f.joints pool unit isGlobal)) 0 (resolveFrom 0 0
      (codeOfBody pool unit isGlobal f.scope none 0 f.body)) (f.scope.length + 1) _ :=
    codeOfBody_trail pool unit f.body nofun
  have result : Path pool (fun _ _ => False) (0 + codeSize code)
      (codeOfOptional pool (f.innerScope isGlobal) f.result) ((f.innerScope isGlobal).length + 1) _ :=
    codeOfOptional_path f.result (Nat.lt_succ_self _)
  rw [equal, resolveFrom_fixedSlots, Function.scope, List.length_reverse] at body
  have whole := (Trail.append body result).retain (fun _ _ => .inl) fun _ _ inside => .inl (.inl inside)
  obtain ⟨marks, same, rest⟩ := whole.marks (by omega)
  refine ⟨marks, ?_, rest⟩
  rw [same, Function.code, equal, map_draft_fixedSlots]

end Reckoner.Script
