import Reckoner.Proofs.Machine.Bounds

/-!
What a machine holds and what it writes. A value in a running machine was there before, or the step has
made it: read from a literal, computed, or given by a native. Nothing is written but the lines of
printed values.
-/

namespace Reckoner

namespace Stack

def cells (s : Stack) : List Value := s.live.toList ++ s.above

variable {s : Stack} {v w : Value}

theorem mem_cells : w ∈ s.cells ↔ w ∈ s.live ∨ w ∈ s.above := by
  rw [cells, List.mem_append, Array.mem_toList_iff]

theorem mem_cells_push (member : w ∈ (s.push v).cells) : w = v ∨ w ∈ s.cells := by
  rw [mem_cells] at member ⊢
  rcases member with live | above
  · rcases Array.mem_push.mp live with old | new
    · exact .inr (.inl old)
    · exact .inl new
  · exact .inr (.inr (List.mem_of_mem_drop above))

theorem mem_cells_below (member : w ∈ (s.below v).cells) : w = v ∨ w ∈ s.cells := by
  rw [mem_cells] at member ⊢
  rcases member with live | above
  · rw [below, ← Array.mem_toList_iff, Array.toList_pop] at live
    exact .inr (.inl (Array.mem_toList_iff.mp ((List.dropLast_sublist _).mem live)))
  · rcases List.mem_cons.mp above with new | old
    · exact .inl new
    · exact .inr (.inr old)

theorem mem_cells_set {slot : Nat} (member : w ∈ (s.set slot v).cells) : w = v ∨ w ∈ s.cells := by
  rw [mem_cells] at member ⊢
  rcases member with live | above
  · rcases Array.mem_or_eq_of_mem_setIfInBounds live with old | new
    · exact .inr (.inl old)
    · exact .inl new
  · exact .inr (.inr above)

theorem mem_cells_resize {n : Nat} (member : w ∈ (s.resize n).cells) : w ∈ s.cells := by
  rw [resize] at member
  split at member
  · rw [cells, Array.toList_shrink, Array.toList_extract] at member
    rw [cells]
    simp only [List.mem_append] at member ⊢
    rcases member with low | high | above
    · exact .inl (List.mem_of_mem_take low)
    · exact .inl (List.mem_of_mem_drop (List.mem_of_mem_take high))
    · exact .inr above
  · rw [cells, Array.toList_append] at member
    rw [cells]
    simp only [List.mem_append] at member ⊢
    rcases member with (live | raised) | above
    · exact .inl live
    · exact .inr (List.mem_of_mem_take raised)
    · exact .inr (List.mem_of_mem_drop above)

theorem mem_of_top? (found : s.top? = some v) : v ∈ s.cells :=
  mem_cells.mpr (.inl (Array.mem_of_back? found))

theorem mem_of_peek? {distance : Nat} (found : s.peek? distance = some v) : v ∈ s.cells := by
  rw [peek?] at found
  split at found
  · exact mem_cells.mpr (.inl (Array.mem_of_getElem? found))
  · cases found

theorem mem_of_get? {slot : Nat} (found : s.get? slot = some v) : v ∈ s.cells :=
  mem_cells.mpr (.inl (Array.mem_of_getElem? found))

theorem mem_of_top {n : Nat} (member : v ∈ s.top n) : v ∈ s.cells := by
  rw [top, Array.toList_extract] at member
  exact List.mem_append_left _ (List.mem_of_mem_drop (List.mem_of_mem_take member))

end Stack

def Value.lines (vs : List Value) : Array (Channel × String) :=
  (vs.map fun v => (.out, v.display ++ "\n")).toArray

@[simp] theorem Value.lines_nil : Value.lines [] = #[] := rfl

theorem Value.lines_append (vs ws : List Value) :
    Value.lines (vs ++ ws) = Value.lines vs ++ Value.lines ws := by
  simp [Value.lines]

def Operation.onNumbers? : Operation → Option (Decimal → Decimal → Except ArithmeticError Decimal)
  | .add => some Decimal.add
  | .subtract => some Decimal.sub
  | .multiply => some Decimal.mul
  | .divide => some Decimal.quo
  | .modulo => some Decimal.rem
  | .exponent => some Decimal.pow
  | _ => none

/-- The value that an operation prints. -/
def Operation.printed? (op : Operation) (s : Stack) : Option Value :=
  if op = .print then s.top? else none

structure Operation.Makes (P : Value → Prop) (s : Stack) (r : Routine) (op : Operation) (operand : Nat) :
    Prop where
  truth : ∀ b, P (.bool b)
  loaded : op = .constant → ∀ v, (r.constants[operand]?).bind Value.ofConstant? = some v → P v
  computed : ∀ f, op.onNumbers? = some f → ∀ a b d, s.peek? 1 = some (.number a) →
    s.peek? 0 = some (.number b) → f a b = .ok d → P (.number d)
  negated : op = .negate → ∀ d, s.peek? 0 = some (.number d) → P (.number d.negate)

namespace Machine

/-- The value that the next step prints. -/
def printed? (m : Machine) : Option Value :=
  match m.frames with
  | [] => none
  | frame :: _ =>
    if byteAt? frame.routine frame.ip = some Operation.print.byte then m.stack.top? else none

/-- Every value in a machine is as described: on the stack or above it, in a global, and the routine of
every call in progress. -/
structure Contains (P : Value → Prop) (m : Machine) : Prop where
  cells : ∀ v ∈ m.stack.cells, P v
  globals : ∀ name v, m.global? name = some v → P v
  routines : ∀ frame ∈ m.frames, P (.routine frame.routine)

structure Keeps (P : Value → Prop) (written : Array (Channel × String)) (m : Machine) : Prop
    extends Contains P m where
  written : m.written = written

end Machine

def Ending.Keeps (P : Value → Prop) (written : Array (Channel × String)) : Ending Value → Prop
  | .done v m => P v ∧ m.Keeps P written
  | .fault _ m | .crash _ m | .exhausted m => m.Keeps P written

/-- During a run, natives make only values as described and write nothing. -/
def Host.Keeps (P : Value → Prop) (host : Host) : Prop :=
  ∀ n args m written, (∀ v ∈ args, P v) → m.Keeps P written →
    (Machine.performBusy host n args m).Keeps P written

namespace Machine

theorem Contains.mono {P Q : Value → Prop} {m : Machine} (contains : m.Contains P)
    (more : ∀ v, P v → Q v) : m.Contains Q where
  cells v member := more v (contains.cells v member)
  globals name v found := more v (contains.globals name v found)
  routines frame member := more _ (contains.routines frame member)

theorem Contains.printed {P : Value → Prop} {m : Machine} (contains : m.Contains P) :
    ∀ v ∈ m.printed?.toList, P v := by
  intro v member
  have printed : m.printed? = some v := Option.mem_toList.mp member
  rw [printed?] at printed
  split at printed
  · cases printed
  · split at printed
    · exact contains.cells v (Stack.mem_of_top? printed)
    · cases printed

namespace Keeps

variable {P : Value → Prop} {written : Array (Channel × String)} {m : Machine}
  (keeps : m.Keeps P written)

include keeps

theorem restack {s : Stack} (cells : ∀ v ∈ s.cells, P v) : Keeps P written { m with stack := s } :=
  ⟨⟨cells, keeps.globals, keeps.routines⟩, keeps.written⟩

theorem reframe {fs : List Frame} (routines : ∀ frame ∈ fs, P (.routine frame.routine)) :
    Keeps P written { m with frames := fs } := ⟨⟨keeps.cells, keeps.globals, routines⟩, keeps.written⟩

theorem reworld (world : World) : Keeps P written { m with world } :=
  ⟨⟨keeps.cells, keeps.globals, keeps.routines⟩, keeps.written⟩

theorem resize (n : Nat) : Keeps P written { m with stack := m.stack.resize n } :=
  keeps.restack fun v member => keeps.cells v (Stack.mem_cells_resize member)

theorem define {v : Value} (known : P v) (name : String) : (m.define name v).Keeps P written := by
  refine ⟨⟨keeps.cells, ?_, keeps.routines⟩, keeps.written⟩
  intro other w found
  rw [global?, Machine.define, Std.ExtTreeMap.getElem?_insert] at found
  split at found
  · rw [← Option.some.inj found]
    exact known
  · exact keeps.globals other w found

theorem set {v : Value} (known : P v) (slot : Nat) :
    Keeps P written { m with stack := m.stack.set slot v } := by
  apply keeps.restack
  intro w member
  rcases Stack.mem_cells_set member with rfl | old
  · exact known
  · exact keeps.cells w old

theorem push {v : Value} (known : P v) {after : Machine} (pushed : m.push v = .ok after) :
    after.Keeps P written := by
  rw [Machine.push] at pushed
  split at pushed
  · cases pushed
  · rw [← Except.ok.inj pushed]
    apply keeps.restack
    intro w member
    rcases Stack.mem_cells_push member with rfl | old
    · exact known
    · exact keeps.cells w old

theorem pushOn {v : Value} (known : P v) : (m.pushOn v).machine.Keeps P written := by
  rw [Machine.pushOn]
  split
  · rename_i pushed
    exact keeps.push known pushed
  · exact keeps

theorem below {v : Value} (top : m.stack.top? = some v) :
    P v ∧ Keeps P written { m with stack := m.stack.below v } := by
  have known : P v := keeps.cells v (Stack.mem_of_top? top)
  refine ⟨known, keeps.restack ?_⟩
  intro w member
  rcases Stack.mem_cells_below member with rfl | old
  · exact known
  · exact keeps.cells w old

theorem pop {v : Value} {after : Machine} (popped : m.pop = .ok (v, after)) : after.Keeps P written := by
  rw [Machine.pop] at popped
  split at popped
  · cases popped
  · rename_i top
    cases popped
    exact (keeps.below top).2

theorem popThen {next : Value → Machine → Step}
    (goes : ∀ v after, P v → after.Keeps P written → (next v after).machine.Keeps P written) :
    (m.popThen next).machine.Keeps P written := by
  rw [Machine.popThen, Machine.pop]
  cases top : m.stack.top? with
  | none => exact keeps
  | some v =>
      obtain ⟨known, lowered⟩ := keeps.below top
      exact goes v _ known lowered

theorem peekThen {distance : Nat} {next : Value → Step}
    (goes : ∀ v, m.stack.peek? distance = some v → P v → (next v).machine.Keeps P written) :
    (m.peekThen distance next).machine.Keeps P written := by
  rw [Machine.peekThen, Machine.peek]
  cases found : m.stack.peek? distance with
  | none => exact keeps
  | some v => exact goes v found (keeps.cells v (Stack.mem_of_peek? found))

theorem twoNumbers {next : Decimal → Decimal → Step}
    (goes : ∀ x y, m.stack.peek? 1 = some (.number x) → m.stack.peek? 0 = some (.number y) →
      (next x y).machine.Keeps P written) : (m.twoNumbers next).machine.Keeps P written := by
  apply keeps.peekThen
  intro b right _
  apply keeps.peekThen
  intro a left _
  split
  · exact goes _ _ left right
  · exact keeps

theorem replaceTwo {v : Value} (known : P v) : (m.replaceTwo v).machine.Keeps P written :=
  (keeps.resize _).pushOn known

theorem arithmetic {f : Decimal → Decimal → Except ArithmeticError Decimal}
    (computed : ∀ a b d, m.stack.peek? 1 = some (.number a) → m.stack.peek? 0 = some (.number b) →
      f a b = .ok d → P (.number d)) : (m.arithmetic f).machine.Keeps P written := by
  apply keeps.twoNumbers
  intro x y left right
  split
  · rename_i d result
    exact keeps.replaceTwo (computed x y d left right result)
  · exact keeps

theorem jumpBy (distance : Int) : (m.jumpBy distance).Keeps P written := by
  have routines := keeps.routines
  rw [Machine.jumpBy]
  split
  · exact keeps
  · rename_i frame rest inProgress
    rw [inProgress] at routines
    apply keeps.reframe
    intro other member
    rcases List.mem_cons.mp member with rfl | older
    · exact routines frame List.mem_cons_self
    · exact routines other (List.mem_cons_of_mem frame older)

theorem enter {r : Routine} (known : P (.routine r)) (count : Nat) :
    (m.enter r count).machine.Keeps P written := by
  rw [Machine.enter]
  split
  · exact keeps
  · split
    · exact keeps
    · apply keeps.reframe
      intro frame member
      rcases List.mem_cons.mp member with rfl | older
      · exact known
      · exact keeps.routines frame older

theorem callValue {host : Host} (natives : host.Keeps P) {callee : Value} (known : P callee)
    (count : Nat) : (m.callValue (performBusy host) callee count).machine.Keeps P written := by
  cases callee with
  | routine r => exact keeps.enter known count
  | native n =>
      rw [Machine.callValue, callNative]
      split
      · exact keeps
      · have args : ∀ v ∈ m.stack.top count, P v :=
          fun v member => keeps.cells v (Stack.mem_of_top member)
        have performed := natives n _ m written args keeps
        dsimp only
        generalize performBusy host n (m.stack.top count) m = ending at performed ⊢
        cases ending with
        | done v after => exact (performed.2.resize _).pushOn performed.1
        | _ => exact performed
  | _ => exact keeps

theorem leave : m.leave.machine.Keeps P written := by
  apply keeps.popThen
  intro result after known lowered
  split
  · exact lowered
  · rename_i frame rest inProgress
    have outer : ∀ frame ∈ rest, P (.routine frame.routine) := by
      intro other member
      exact lowered.routines other (inProgress ▸ List.mem_cons_of_mem frame member)
    have handed := ((lowered.reframe outer).resize frame.base).pushOn known
    dsimp only at handed ⊢
    generalize Machine.pushOn _ result = step at handed ⊢
    cases step with
    | next last =>
        dsimp only
        split <;> exact handed
    | _ => exact handed

theorem execute {host : Host} (natives : host.Keeps P) {frame : Frame} {op : Operation} {operand : Nat}
    (makes : op.Makes P m.stack frame.routine operand) :
    (Machine.execute host m frame op operand).machine.Keeps P
      (written ++ Value.lines (op.printed? m.stack).toList) := by
  by_cases print : op = .print
  · subst print
    rw [Operation.printed?, if_pos rfl, Machine.execute, Machine.popThen, Machine.pop]
    cases top : m.stack.top? with
    | none => exact keeps
    | some v =>
        obtain ⟨-, lowered⟩ := keeps.below top
        have printed : Keeps P (written ++ Value.lines [v])
            (Machine.write { m with stack := m.stack.below v } .out (v.display ++ "\n")) := by
          refine ⟨⟨lowered.cells, lowered.globals, lowered.routines⟩, ?_⟩
          rw [← keeps.written]
          rfl
        exact printed
  rw [Operation.printed?, if_neg print]
  show (Machine.execute host m frame op operand).machine.Keeps P (written ++ #[])
  rw [Array.append_empty]
  cases op with
  | true | false => exact keeps.pushOn (makes.truth _)
  | constant =>
      rw [Machine.execute]
      split
      · rename_i v found
        exact keeps.pushOn (makes.loaded rfl v found)
      · exact keeps
  | pop => exact keeps.popThen fun v after _ lowered => lowered
  | popN =>
      rw [Machine.execute, dropOn]
      split
      · exact keeps.resize _
      · exact keeps
  | loadGlobal =>
      rw [Machine.execute]
      split
      · exact keeps
      · split
        · rename_i found
          exact keeps.pushOn (keeps.globals _ _ found)
        · exact keeps
  | assignGlobal =>
      rw [Machine.execute]
      split
      · exact keeps
      · split
        · exact keeps.peekThen fun v _ known => keeps.define known _
        · exact keeps
  | defineGlobal =>
      rw [Machine.execute]
      split
      · exact keeps
      · exact keeps.popThen fun v after known lowered => lowered.define known _
  | loadLocal =>
      rw [Machine.execute]
      split
      · rename_i v found
        exact keeps.pushOn (keeps.cells v (Stack.mem_of_get? found))
      · exact keeps
  | assignLocal =>
      apply keeps.peekThen
      intro v _ known
      split
      · exact keeps.set known _
      · exact keeps
  | equal =>
      apply keeps.popThen
      intro b lower _ lowered
      apply lowered.popThen
      intro a lowest _ low
      exact low.pushOn (makes.truth _)
  | greater | less => exact keeps.twoNumbers fun x y _ _ => keeps.replaceTwo (makes.truth _)
  | add | subtract | multiply | divide | modulo | exponent =>
      exact keeps.arithmetic (makes.computed _ rfl)
  | negate =>
      apply keeps.peekThen
      intro v top _
      split
      · exact keeps.set (makes.negated rfl _ top) _
      · exact keeps
  | not => exact keeps.popThen fun v after _ lowered => lowered.pushOn (makes.truth _)
  | print => exact absurd rfl print
  | jump | loop => exact keeps.jumpBy _
  | jumpIfFalse =>
      apply keeps.peekThen
      intro v _ _
      split
      · exact keeps.jumpBy _
      · exact keeps
  | call => exact keeps.peekThen fun callee _ known => keeps.callValue natives known operand
  | «return» => exact keeps.leave

theorem pointed {frame : Frame} {rest : List Frame} (frames : m.frames = frame :: rest) {last ip : Int}
    (count : Nat) (trace : Option (Array TraceEntry)) :
    Keeps P written { m with frames := { frame with last, ip } :: rest, count, trace } := by
  have routines := keeps.routines
  rw [frames] at routines
  refine ⟨⟨keeps.cells, keeps.globals, ?_⟩, keeps.written⟩
  intro other member
  rcases List.mem_cons.mp member with rfl | older
  · exact routines frame List.mem_cons_self
  · exact routines other (List.mem_cons_of_mem frame older)

theorem ran {host : Host} (natives : host.Keeps P) {frame : Frame} {rest : List Frame} {op : Operation}
    {operand : Nat} (frames : m.frames = frame :: rest)
    (byte : byteAt? frame.routine frame.ip = some op.byte)
    (read : frame.routine.operandAt? (frame.ip.toNat + 1) op.operand.width = some operand)
    (makes : op.Makes P m.stack frame.routine operand) :
    (m.step host).machine.Keeps P (written ++ Value.lines (op.printed? m.stack).toList) := by
  obtain ⟨count, trace, fetched⟩ := m.fetchByte_with frame rest op.byte (1 + op.operand.width)
  rw [fetchByte_eq] at fetched
  have ready : (m.fetch frame rest op).Keeps P written := by
    rw [fetched]
    exact keeps.pointed frames count trace
  rw [step_eq frames byte read, ← m.fetch_stack frame rest op]
  apply ready.execute natives
  rw [m.fetch_stack frame rest op]
  exact makes

theorem step {host : Host} (natives : host.Keeps P)
    (makes : ∀ frame rest op operand, m.frames = frame :: rest →
      byteAt? frame.routine frame.ip = some (Operation.byte op) →
      frame.routine.operandAt? (frame.ip.toNat + 1) op.operand.width = some operand →
        op.Makes P m.stack frame.routine operand) :
    (m.step host).machine.Keeps P (written ++ Value.lines m.printed?.toList) := by
  cases frames : m.frames with
  | nil =>
      rw [Machine.step, printed?, frames]
      exact keeps
  | cons frame rest =>
      rw [printed?, frames]
      dsimp only
      by_cases print : byteAt? frame.routine frame.ip = some Operation.print.byte
      · rw [if_pos print]
        exact keeps.ran natives frames print rfl (makes frame rest .print 0 frames print rfl)
      · rw [if_neg print]
        rcases step_cases host frames with
          ⟨_, _, crashed, count, trace, rfl⟩ | ⟨b, _, _, raised⟩ | ⟨op, operand, byte, read, _⟩
        · rw [crashed]
          exact keeps.pointed frames count trace
        · obtain ⟨count, trace, fetched⟩ := m.fetchByte_with frame rest b 1
          rw [raised, fetched]
          exact keeps.pointed frames count trace
        · have silent : op.printed? m.stack = none := by
            refine if_neg ?_
            rintro rfl
            exact print byte
          rw [← silent]
          exact keeps.ran natives frames byte read (makes frame rest op operand frames byte read)

theorem pushAll {vs : List Value} (known : ∀ v ∈ vs, P v) {after : Machine}
    (pushed : m.pushAll vs = .ok after ∨ m.pushAll vs = .error after) : after.Keeps P written := by
  induction vs generalizing m with
  | nil =>
      rw [Machine.pushAll] at pushed
      rcases pushed with full | spilled
      · rwa [← Except.ok.inj full]
      · cases spilled
  | cons v rest ih =>
      rw [Machine.pushAll] at pushed
      cases put : m.push v with
      | error cause =>
          rw [put] at pushed
          rcases pushed with full | spilled
          · cases full
          · rwa [← Except.error.inj spilled]
      | ok next =>
          rw [put] at pushed
          have others : ∀ w ∈ rest, P w := fun w member => known w (List.mem_cons_of_mem v member)
          exact ih (keeps.push (known v List.mem_cons_self) put) others pushed

theorem prepare : m.prepare.Keeps P written :=
  ⟨⟨keeps.cells, keeps.globals, List.forall_mem_nil _⟩, keeps.written⟩

theorem abandon (f : Fault) (height : Nat) :
    (m.abandon f height).Keeps P (written ++ #[(.err, f.report)]) := by
  have told : (m.write .err f.report).written = written ++ #[(.err, f.report)] := by
    rw [← keeps.written]
    rfl
  refine ⟨⟨?_, keeps.globals, List.forall_mem_nil _⟩, told⟩
  intro v member
  rw [Machine.abandon] at member
  dsimp only at member
  split at member
  · exact keeps.cells v (Stack.mem_cells_resize member)
  · exact keeps.cells v member

theorem starts {r : Routine} (routine : P (.routine r)) {args : List Value} (known : ∀ v ∈ args, P v)
    {first : Machine} (starts : m.Starts r args first) : first.Keeps P written := by
  obtain ⟨full, pushed, entered⟩ := starts
  have begun : ∀ v ∈ .routine r :: args, P v := by
    intro v member
    rcases List.mem_cons.mp member with rfl | arg
    · exact routine
    · exact known v arg
  have running := (keeps.prepare.pushAll begun (.inl pushed)).enter routine args.length
  rwa [entered] at running

end Keeps

end Machine

end Reckoner
