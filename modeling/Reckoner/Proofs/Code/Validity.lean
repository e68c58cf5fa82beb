import Reckoner.Proofs.Compiler.Source
import Reckoner.Proofs.Script.Depth

/-!
Valid code. Every routine that comes out of a compilation decodes from its first byte to its last,
leads only to its own instructions, and has one stack depth at each offset that control can reach.
-/

namespace Reckoner

def Consecutive (last : Nat) : (offset : Nat) → List Instruction → Prop
  | offset, [] => offset = last
  | offset, i :: rest => i.offset = offset ∧ Consecutive last (offset + i.size) rest

/-- Whether a constant is what an operation expects. Names are texts; the values that can be loaded
are numbers and routines. -/
def Operation.Accepts (op : Operation) (c : Constant) : Prop :=
  if op = .constant then (∃ d, c = .number d) ∨ ∃ r, c = .routine r else ∃ name, c = .text name

namespace Routine

/-- A routine, those among its constants, those among theirs, and so on. -/
inductive Nested (r : Routine) : Routine → Prop where
  | self : Nested r r
  | constant {q inner : Routine} (nested : Nested r q) (member : .routine inner ∈ q.constants) :
    Nested r inner

structure Valid (r : Routine) : Prop where
  decodes : r.instructions.2 = none
  consecutive : Consecutive r.code.size 0 r.instructions.1.toList
  known : ∀ i ∈ r.instructions.1, (Operation.ofByte? i.byte).isSome
  returns : ∃ i, r.instructions.1.back? = some i ∧ Operation.ofByte? i.byte = some .return
  targets : ∀ i ∈ r.instructions.1, ∀ target, i.target = some target →
    ∃ j ∈ r.instructions.1, target = (j.offset : Int)
  constants : ∀ i ∈ r.instructions.1, ∀ op, Operation.ofByte? i.byte = some op →
    op.operand = .constant → ∃ index c, i.operand = some index ∧ index < r.constants.size ∧
      r.constants[index]? = some c ∧ op.Accepts c
  depth : ∀ offset d e, r.Flows offset d → r.Flows offset e → d = e
  enough : ∀ offset d, r.Flows offset d → ∃ i ∈ r.instructions.1, i.offset = offset ∧
    ∃ op, Operation.ofByte? i.byte = some op ∧ op.takes (i.operand.getD 0) < d ∧
      (op.operand = .slot → i.operand.getD 0 < d)
  sized : r.lines.size = r.code.size
  ascending : r.lines.toList.Pairwise (· ≤ ·)
  positive : ∀ line ∈ r.lines, 1 ≤ line
  steady : ∀ i ∈ r.instructions.1, ∀ k < i.size,
    r.lineAt (i.offset + k : Nat) = r.lineAt i.offset

end Routine

namespace Script

theorem Directive.Refers.accepts {pool : Pool} {d : Directive} (refers : d.Refers pool)
    (fits : d.Fits pool) (kind : d.op.operand = .constant) :
    ∃ c, pool[d.operand]? = some c ∧ d.op.Accepts c := by
  have bound := fits.stored kind
  obtain ⟨op, operand⟩ := d
  cases op with
  | constant =>
      rcases refers with ⟨n, rfl⟩ | ⟨id, rfl⟩
      · obtain ⟨e, stored, -⟩ := Pool.find_number bound
        exact ⟨_, stored, .inl ⟨e, rfl⟩⟩
      · obtain ⟨r, stored, -⟩ := Pool.findRoutine_entry bound
        exact ⟨_, stored, .inr ⟨r, rfl⟩⟩
  | loadGlobal | assignGlobal | defineGlobal =>
      obtain ⟨name, rfl⟩ := refers
      exact ⟨_, Pool.find_text bound, name, rfl⟩
  | _ => nomatch kind

theorem consecutive_instructionsFrom (pool : Pool) (p : Nat) (code : List Directive) :
    Consecutive (p + codeSize code) p (instructionsFrom pool p code) := by
  induction code generalizing p with
  | nil => rfl
  | cons d rest ih =>
      refine ⟨rfl, ?_⟩
      rw [codeSize, ← Nat.add_assoc]
      exact ih (p + d.size)

theorem instructionsFrom_append (pool : Pool) (p : Nat) (a b : List Directive) :
    instructionsFrom pool p (a ++ b) =
      instructionsFrom pool p a ++ instructionsFrom pool (p + codeSize a) b := by
  induction a generalizing p with
  | nil => rfl
  | cons d rest ih =>
      rw [List.cons_append, instructionsFrom, ih, instructionsFrom, codeSize, Nat.add_assoc]
      rfl

theorem Stands.marked {marks : List (Directive × Nat)} {p : Nat} {d : Directive}
    (stands : Stands (marks.map Prod.fst) p d) : ∃ depth, MarkedAt marks p d depth := by
  obtain ⟨before, after, equal, rfl⟩ := stands
  obtain ⟨first, rest, rfl, rfl, tail⟩ := List.map_eq_append_iff.mp equal
  obtain ⟨m, last, rfl, rfl, -⟩ := List.map_eq_cons_iff.mp tail
  exact ⟨m.2, first, last, rfl, rfl⟩

theorem Directive.Sound.target {pool : Pool} {depths : Nat → Nat → Prop} {p depth : Nat}
    {d : Directive} {target : Int} (sound : d.Sound pool depths p depth)
    (leads : d.target p = some target) : ∃ q : Nat, target = q ∧ depths q depth := by
  rw [Directive.target] at leads
  split at leads
  · rename_i jumps
    exact ⟨p + d.size + d.operand, (Option.some.inj leads).symm, sound.forward jumps⟩
  · rename_i loops
    obtain ⟨bound, known⟩ := sound.back loops
    exact ⟨p + d.size - d.operand, by rw [← Option.some.inj leads]; omega, known⟩
  · exact absurd leads (by simp)

theorem Directive.instruction_operand {pool : Pool} {d : Directive} (fits : d.Fits pool) (p : Nat) :
    (d.instruction pool p).operand.getD 0 = d.operand := by
  simp only [Directive.instruction]
  split
  · rename_i none
    have width := fits.width
    rw [none] at width
    exact (Nat.lt_one_iff.mp width).symm
  · rfl

/-- Control reaches a directive of a routine at a depth, finds what it needs there, and can go on. -/
structure Directive.Reached (r : Routine) (p : Nat) (d : Directive) (depth : Nat) : Prop where
  byte : r.code[p]? = some d.op.byte
  operand : r.operandAt? (p + 1) d.op.operand.width = some d.operand
  constant : d.op.operand = .constant → ∃ c, r.constants[d.operand]? = some c ∧ d.op.Accepts c
  slot : d.op.operand = .slot → d.operand < depth
  enough : d.op.takes d.operand < depth
  falls : d.op.fallsThrough = true → r.Flows (p + d.size) (d.op.depthAfter d.operand depth)
  forward : d.op.operand = .jump → r.Flows (p + d.size + d.operand) depth
  back : d.op.operand = .loop → d.operand ≤ p + d.size ∧ r.Flows (p + d.size - d.operand) depth

namespace Carries

variable {unit : Nat} {isGlobal : Bool} {r : Routine} {f : Function} {marked : List Marked}

theorem marks (carries : Carries unit isGlobal r f marked) :
    ∃ marks : List (Directive × Nat), marks.map Prod.fst = f.code r.constants unit isGlobal ∧
      (∀ q c, Known (f.joints r.constants unit isGlobal) q c → ∃ x, MarkedAt marks q x c) ∧
      (∀ q x c, MarkedAt marks q x c →
        x.Sound r.constants (fun q c => ∃ y, MarkedAt marks q y c) q c) ∧
      ∀ q c, r.Flows q c → ∃ x, MarkedAt marks q x c := by
  obtain ⟨marks, same, entry, joints, sound⟩ := f.marks r.constants unit isGlobal
  refine ⟨marks, same, joints, sound, ?_⟩
  have read : ∀ {q c : Nat} {x : Directive} {i : Instruction}, MarkedAt marks q x c →
      r.decodeAt q = .ok i → i = x.instruction r.constants q ∧ x.Fits r.constants := by
    intro q c x i here decoded
    have stands := here.stands
    rw [same] at stands
    rw [carries.decodeAt stands] at decoded
    exact ⟨(Except.ok.inj decoded).symm, carries.fits x stands.mem⟩
  intro q c flows
  induction flows with
  | start arity =>
      rw [carries.arity] at arity
      rw [← Int.ofNat.inj arity]
      exact entry
  | next reached decoded known falls ih =>
      obtain ⟨x, here⟩ := ih
      obtain ⟨rfl, fits⟩ := read here decoded
      obtain rfl : x.op = _ := Option.some.inj ((Operation.ofByte?_byte x.op).symm.trans known)
      rw [Directive.instruction_operand fits]
      exact (sound _ _ _ here).falls falls
  | jump reached decoded leads ih =>
      obtain ⟨x, here⟩ := ih
      obtain ⟨rfl, -⟩ := read here decoded
      obtain ⟨target, equal, known⟩ := (sound _ _ _ here).target leads
      rw [Int.ofNat.inj equal]
      exact known

/-- Where control gets to a joint, the stack holds the function and the locals in scope. -/
theorem depth_at_joint (carries : Carries unit isGlobal r f marked) {joint : Joint} {depth : Nat}
    (member : joint ∈ f.joints r.constants unit isGlobal) (flows : r.Flows joint.offset depth) :
    depth = joint.scope.length + 1 := by
  obtain ⟨marks, -, joints, -, reach⟩ := carries.marks
  obtain ⟨x, here⟩ := reach joint.offset depth flows
  obtain ⟨y, there⟩ := joints joint.offset _ ⟨joint, member, rfl, rfl⟩
  exact here.unique there

theorem fetch (carries : Carries unit isGlobal r f marked) {p : Nat} {d : Directive}
    (stands : Stands (f.code r.constants unit isGlobal) p d) :
    r.code[p]? = some d.op.byte ∧
      r.operandAt? (p + 1) d.op.operand.width = some d.operand := by
  obtain ⟨before, after, code, rfl⟩ := carries.split stands
  exact ⟨byte_at code, operandAt_eq code (carries.fits d stands.mem).width⟩

theorem reached (carries : Carries unit isGlobal r f marked) {p depth : Nat}
    (flows : r.Flows p depth) : ∃ d, Directive.Reached r p d depth := by
  obtain ⟨marks, same, -, sound, reach⟩ := carries.marks
  obtain ⟨d, here⟩ := reach p depth flows
  have sound := sound p d depth here
  have stands := here.stands
  rw [same] at stands
  have fits := carries.fits d stands.mem
  have decoded := carries.decodeAt stands
  obtain ⟨byte, operand⟩ := carries.fetch stands
  refine ⟨d, byte, operand, sound.refers.accepts fits, sound.slot, sound.enough, ?_, ?_, ?_⟩
  · intro falls
    have next := flows.next decoded (Operation.ofByte?_byte d.op) falls
    rwa [Directive.instruction_operand fits] at next
  · intro jumps
    refine flows.jump decoded ?_
    show d.target p = _
    rw [Directive.target, jumps]
    rfl
  · intro loops
    obtain ⟨bound, -⟩ := sound.back loops
    refine ⟨bound, flows.jump decoded ?_⟩
    show d.target p = _
    rw [Directive.target, loops]
    exact congrArg some (by omega)

theorem length_markedLines (marked : List Marked) :
    (markedLines marked).length = codeSize (marked.map Marked.directive) := by
  induction marked with
  | nil => rfl
  | cons m rest ih =>
      rw [markedLines, List.flatMap_cons, List.length_append, List.length_replicate, List.map_cons,
        codeSize]
      exact congrArg (m.directive.size + ·) ih

theorem line_eq (carries : Carries unit isGlobal r f marked) {q : Nat} {d : Directive}
    (stands : Stands (f.code r.constants unit isGlobal) q d) :
    ∃ line : Nat, ∀ k < d.size, r.lineAt (q + k : Nat) = line := by
  rw [← carries.directives] at stands
  obtain ⟨before, after, equal, rfl⟩ := stands
  obtain ⟨first, rest, split, rfl, tail⟩ := List.map_eq_append_iff.mp equal
  obtain ⟨m, last, rfl, rfl, -⟩ := List.map_eq_cons_iff.mp tail
  refine ⟨m.line, fun k inside => ?_⟩
  have lines := carries.lines
  rw [split, markedLines, List.flatMap_append, List.flatMap_cons] at lines
  have length := length_markedLines first
  rw [markedLines] at length
  rw [Routine.lineAt, if_neg (by omega), Int.toNat_natCast, ← Array.getElem?_toList, lines,
    List.getElem?_append_right (by omega), length, Nat.add_sub_cancel_left,
    List.getElem?_append_left (by simpa using inside), List.getElem?_replicate_of_lt inside]
  rfl

theorem lines_ascending (carries : Carries unit isGlobal r f marked) :
    r.lines.toList.Pairwise (· ≤ ·) := by
  rw [carries.lines, markedLines, List.pairwise_flatMap]
  refine ⟨fun m _ => List.pairwise_replicate.mpr (.inr (Int.le_refl _)), ?_⟩
  refine (List.pairwise_map.mp carries.ordered).imp fun {a b} ordered x inA y inB => ?_
  rw [(List.mem_replicate.mp inA).2, (List.mem_replicate.mp inB).2]
  exact Int.ofNat_le.mpr ordered

theorem lines_positive (carries : Carries unit isGlobal r f marked) :
    ∀ line ∈ r.lines, 1 ≤ line := by
  intro line member
  rw [← Array.mem_toList_iff, carries.lines, markedLines] at member
  obtain ⟨m, inMarked, copies⟩ := List.mem_flatMap.mp member
  rw [(List.mem_replicate.mp copies).2]
  exact Int.ofNat_le.mpr (carries.positive _ (List.mem_map_of_mem inMarked))

theorem mem_instructions (carries : Carries unit isGlobal r f marked) {i : Instruction} :
    i ∈ r.instructions.1 ↔ ∃ q d, Stands (f.code r.constants unit isGlobal) q d ∧
      i = d.instruction r.constants q := by
  rw [carries.instructions, List.mem_toArray, mem_instructionsFrom]
  simp only [Nat.zero_add]

theorem directive_of_mem (carries : Carries unit isGlobal r f marked) {i : Instruction} {op : Operation}
    (member : i ∈ r.instructions.1) (known : Operation.ofByte? i.byte = some op) :
    ∃ d ∈ f.code r.constants unit isGlobal, d.op = op ∧
      (op.operand ≠ .none → i.operand = some d.operand) := by
  obtain ⟨p, d, stands, rfl⟩ := carries.mem_instructions.mp member
  obtain rfl : d.op = op := Option.some.inj ((Operation.ofByte?_byte d.op).symm.trans known)
  refine ⟨d, stands.mem, rfl, fun takes => ?_⟩
  rw [Directive.instruction, if_neg takes]

theorem valid (carries : Carries unit isGlobal r f marked) : r.Valid := by
  obtain ⟨marks, same, -, sound, flows⟩ := carries.marks
  have instructions := carries.instructions
  have listed : ∀ {q c : Nat} {x : Directive}, MarkedAt marks q x c →
      x.instruction r.constants q ∈ r.instructions.1 ∧ x.Fits r.constants := by
    intro q c x here
    have stands := here.stands
    rw [same] at stands
    exact ⟨carries.mem_instructions.mpr ⟨q, x, stands, rfl⟩, carries.fits x stands.mem⟩
  have unlisted : ∀ {i : Instruction}, i ∈ r.instructions.1 → ∃ q x c, MarkedAt marks q x c ∧
      i = x.instruction r.constants q := by
    intro i member
    obtain ⟨q, x, stands, rfl⟩ := carries.mem_instructions.mp member
    rw [← same] at stands
    obtain ⟨c, here⟩ := stands.marked
    exact ⟨q, x, c, here, rfl⟩
  refine ⟨?decodes, ?consecutive, ?known, ?returns, ?targets, ?constants, ?depth, ?enough, ?sized,
    carries.lines_ascending, carries.lines_positive, ?steady⟩
  case decodes => rw [instructions]
  case consecutive =>
    rw [instructions, carries.size]
    have whole := consecutive_instructionsFrom r.constants 0 (f.code r.constants unit isGlobal)
    rwa [Nat.zero_add] at whole
  case known =>
    intro i member
    obtain ⟨q, x, c, -, rfl⟩ := unlisted member
    show (Operation.ofByte? x.op.byte).isSome
    rw [Operation.ofByte?_byte]
    rfl
  case returns =>
    rw [instructions, Function.code, instructionsFrom_append]
    exact ⟨_, (List.back?_toArray _).trans List.getLast?_concat, rfl⟩
  case targets =>
    intro i member target leads
    obtain ⟨q, x, c, here, rfl⟩ := unlisted member
    obtain ⟨p, rfl, y, there⟩ := (sound q x c here).target leads
    exact ⟨_, (listed there).1, rfl⟩
  case constants =>
    intro i member op known kind
    obtain ⟨q, x, c, here, rfl⟩ := unlisted member
    obtain rfl : x.op = op := Option.some.inj ((Operation.ofByte?_byte x.op).symm.trans known)
    obtain ⟨entry, stored, accepts⟩ := (sound q x c here).refers.accepts (listed here).2 kind
    refine ⟨x.operand, entry, ?_, (listed here).2.stored kind, stored, accepts⟩
    rw [Directive.instruction, kind]
    rfl
  case depth =>
    intro offset d e first second
    obtain ⟨x, here⟩ := flows offset d first
    obtain ⟨y, there⟩ := flows offset e second
    exact here.unique there
  case enough =>
    intro offset d reached
    obtain ⟨x, here⟩ := flows offset d reached
    obtain ⟨member, fits⟩ := listed here
    refine ⟨_, member, rfl, x.op, Operation.ofByte?_byte x.op, ?_, ?_⟩
    · rw [Directive.instruction_operand fits]
      exact (sound _ _ _ here).enough
    · rw [Directive.instruction_operand fits]
      exact (sound _ _ _ here).slot
  case sized =>
    rw [carries.size, ← Array.length_toList, carries.lines, length_markedLines, carries.directives]
  case steady =>
    intro i member k inside
    obtain ⟨q, x, stands, rfl⟩ := carries.mem_instructions.mp member
    obtain ⟨line, lines⟩ := carries.line_eq stands
    exact (lines k inside).trans (lines 0 x.size_pos).symm

end Carries

theorem Implements.of_nested {unit : Nat} {isGlobal : Bool} {r q : Routine} {f : Function}
    (implements : Implements unit isGlobal r f) (nested : r.Nested q) :
    ∃ inner g, f.Contains g ∧ Implements unit inner q g := by
  induction nested with
  | self => exact ⟨isGlobal, f, .self, implements⟩
  | constant _ member ih =>
      obtain ⟨inner, g, contained, image⟩ := ih
      obtain ⟨h, declared, known⟩ := image.nested member
      exact ⟨false, h, .inner contained declared, known⟩

end Script

theorem Routine.Nested.trans {r q p : Routine} (outer : r.Nested q) (inner : q.Nested p) :
    r.Nested p := by
  induction inner with
  | self => exact outer
  | constant _ member ih => exact .constant ih member

mutual

theorem Listing.routine_sound (l : Listing) (r : Routine)
    (decodes : ∀ q, r.Nested q → q.instructions.2 = none) : (l.routine r).2 = none := by
  match r with
  | ⟨identity, name, arity, code, lines, ⟨constants⟩⟩ =>
      rw [Listing.routine]
      split
      · rfl
      · have here := decodes _ .self
        simp only [Listing.code, here]
        refine Listing.pool_sound _ constants fun inner member q nested => ?_
        exact decodes q (.trans (.constant .self (List.mem_toArray.mpr member)) nested)

theorem Listing.pool_sound (l : Listing) (constants : List Constant)
    (decodes : ∀ r, .routine r ∈ constants → ∀ q, r.Nested q → q.instructions.2 = none) :
    (l.pool constants).2 = none := by
  match constants with
  | [] => rfl
  | c :: rest =>
      rw [Listing.pool]
      have first := Listing.constant_sound l c fun r same => decodes r (same ▸ List.mem_cons_self)
      split
      · rename_i l fault failed
        rw [failed] at first
        exact absurd first (by simp)
      · exact Listing.pool_sound _ rest fun r member => decodes r (List.mem_cons_of_mem c member)

theorem Listing.constant_sound (l : Listing) (c : Constant)
    (decodes : ∀ r, .routine r = c → ∀ q, r.Nested q → q.instructions.2 = none) :
    (l.constant c).2 = none := by
  match c with
  | .routine r => exact Listing.routine_sound l r (decodes r rfl)
  | .number _ | .text _ | .bool _ | .foreign => rfl

end

namespace Script

/-- The instructions of a routine have exactly the operands of the code of a function, which know no
bounds. -/
def Function.StoredIn (f : Function) (unit : Nat) (isGlobal : Bool) (r : Routine) : Prop :=
  r.instructions.1.toList.map (fun i => (Operation.ofByte? i.byte, i.operand.getD 0)) =
    (f.code r.constants unit isGlobal).map fun d => (some d.op, d.operand)

theorem stored_instructionsFrom {pool : Pool} {code : List Directive} (p : Nat)
    (fits : ∀ d ∈ code, d.Fits pool) :
    (instructionsFrom pool p code).map (fun i => (Operation.ofByte? i.byte, i.operand.getD 0)) =
      code.map fun d => (some d.op, d.operand) := by
  induction code generalizing p with
  | nil => rfl
  | cons d rest ih =>
      rw [instructionsFrom, List.map_cons, List.map_cons,
        ih (p + d.size) fun e member => fits e (List.mem_cons_of_mem d member),
        Directive.instruction_operand (fits d List.mem_cons_self)]
      show (Operation.ofByte? d.op.byte, _) :: _ = _
      rw [Operation.ofByte?_byte]

theorem Carries.stored {unit : Nat} {isGlobal : Bool} {r : Routine} {f : Function}
    {marked : List Marked} (carries : Carries unit isGlobal r f marked) :
    f.StoredIn unit isGlobal r := by
  rw [Function.StoredIn, carries.instructions]
  exact stored_instructionsFrom 0 carries.fits

theorem Implements.valid {unit : Nat} {isGlobal : Bool} {r : Routine} {f : Function}
    (implements : Implements unit isGlobal r f) :
    (∀ q, r.Nested q → q.Valid ∧ ∃ g inner, f.Contains g ∧ g.StoredIn unit inner q) ∧
      ∀ l : Listing, (l.routine r).2 = none := by
  have valid : ∀ q, r.Nested q → q.Valid ∧ ∃ g inner, f.Contains g ∧ g.StoredIn unit inner q := by
    intro q nested
    obtain ⟨inner, g, contained, image⟩ := implements.of_nested nested
    obtain ⟨marked, carries⟩ := image.carries
    exact ⟨carries.valid, g, inner, contained, carries.stored⟩
  exact ⟨valid, fun l => l.routine_sound r fun q nested => (valid q nested).1.decodes⟩

end Script

/-- Code that the compiler accepts is valid, down to the innermost function, and its operands are
those of the source read without bounds. -/
theorem compiled_code_valid {unit : Nat} {source : List UInt8} {r : Routine}
    (accepted : compileBytes unit source = .ok r ∨ compileExpressionBytes unit source = .ok r) :
    (∃ f, ((compileBytes unit source = .ok r ∧ Script.scriptTree? source = some f) ∨
        (compileExpressionBytes unit source = .ok r ∧ Script.expressionTree? source = some f)) ∧
      ∀ q, r.Nested q → q.Valid ∧ ∃ g inner, f.Contains g ∧ g.StoredIn unit inner q) ∧
      ∀ l : Listing, (l.routine r).2 = none := by
  rcases accepted with script | expression
  · obtain ⟨f, read, implements⟩ := Compiler.script_implements script
    exact ⟨⟨f, .inl ⟨script, read⟩, implements.valid.1⟩, implements.valid.2⟩
  · obtain ⟨f, read, implements⟩ := Compiler.expression_implements expression
    exact ⟨⟨f, .inr ⟨expression, read⟩, implements.valid.1⟩, implements.valid.2⟩

theorem exists_ok {ε α : Type} {e : Except ε α} (accepted : e.toOption.isSome = true) :
    ∃ a, e = .ok a := by
  cases e with
  | error _ => exact absurd accepted Bool.false_ne_true
  | ok a => exact ⟨a, rfl⟩

theorem compiled_code_valid_break :
    ∃ r, compile 0 "fn f(x) = x and 2; while f(1): if f(0): break; else: { var y = 3; continue; }" =
      .ok r ∧ r.Valid := by
  obtain ⟨r, compiled⟩ := exists_ok (show (compile 0
    "fn f(x) = x and 2; while f(1): if f(0): break; else: { var y = 3; continue; }").toOption.isSome
      = true by with_unfolding_all rfl)
  obtain ⟨f, -, valid⟩ := (compiled_code_valid (.inl compiled)).1
  exact ⟨r, compiled, (valid r .self).1⟩

end Reckoner
