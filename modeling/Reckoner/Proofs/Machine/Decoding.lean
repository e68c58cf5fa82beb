import Reckoner.Proofs.Machine.Bounds

/-!
Two readers of the code. The machine reads byte after byte as it runs; decoding reads one instruction
at an offset. They agree on any code whatsoever, and a fault names the instruction that raised it.
-/

namespace Reckoner

theorem head?_append {s : String} {c : Char} (head : s.toList.head? = some c) (t : String) :
    (s ++ t).toList.head? = some c := by
  rw [String.toList_append, List.head?_append, head]
  rfl

namespace Instruction

def name? (i : Instruction) : Option String :=
  match i.constant with
  | some (.text name) => some name
  | _ => none

end Instruction

/-- A call that knows no code, only where its values begin. -/
def Frame.bare (base : Nat) : Frame := { routine := default, ip := 0, base, last := 0 }

namespace Machine

def jumpTo (m : Machine) (target : Option Int) : Machine :=
  match m.frames, target with
  | frame :: rest, some ip => { m with frames := { frame with ip } :: rest }
  | _, _ => m

/-- Runs a decoded instruction, knowing no more of the code than decoding has told. -/
def obey (host : Host) (m : Machine) (base : Nat) (i : Instruction) : Step :=
  match Operation.ofByte? i.byte with
  | none => m.raise (.unknownOperation i.byte)
  | some .constant =>
    match i.constant.bind Value.ofConstant? with
    | some v => m.pushOn v
    | none => .crash badConstant m
  | some .loadGlobal =>
    match i.name? with
    | none => .crash badName m
    | some name =>
      match m.global? name with
      | some v => m.pushOn v
      | none => m.raise (.undefinedVariable name)
  | some .assignGlobal =>
    match i.name? with
    | none => .crash badName m
    | some name =>
      match m.global? name with
      | some _ => m.peekThen 0 fun v => .next (m.define name v)
      | none => m.raise (.undefinedVariable name)
  | some .defineGlobal =>
    match i.name? with
    | none => .crash badName m
    | some name => m.popThen fun v m => .next (m.define name v)
  | some .jump | some .loop => .next (m.jumpTo i.target)
  | some .jumpIfFalse => m.peekThen 0 fun v => .next (if v.falsey then m.jumpTo i.target else m)
  | some op => execute host m (.bare base) op (i.operand.getD 0)

end Machine

namespace Routine

variable {r : Routine} {ip : Int}

end Routine

structure Instruction.Renders (i : Instruction) (r : Routine) (start : Nat) (op : Operation)
    (value : Nat) : Prop where
  offset : i.offset = start
  byte : i.byte = op.byte
  name : i.name = Operation.nameOf i.byte
  operand : i.operand = if op.operand = .none then none else some value
  size : i.size = 1 + op.operand.width
  constant : i.constant = if op.operand = .constant then r.constants[value]? else none
  target : i.target =
    match op.operand with
    | .jump => some ((start + i.size : Nat) + value)
    | .loop => some ((start + i.size : Nat) - value)
    | _ => none

theorem Routine.withOperand_cases (r : Routine) (start : Nat) (op : Operation) (value : Nat) :
    (∃ i, r.withOperand (.bare start op.byte) op.operand value = .ok i ∧
      i.Renders r start op value) ∨ op.operand = .constant ∧ r.constants[value]? = none := by
  unfold withOperand
  cases kind : op.operand with
  | constant =>
      cases found : r.constants[value]? with
      | none => exact .inr ⟨rfl, rfl⟩
      | some c =>
          refine .inl ⟨_, rfl, ⟨rfl, rfl, rfl, ?_, ?_, ?_, ?_⟩⟩
          all_goals simp [kind, found, Instruction.bare]
  | _ =>
      refine .inl ⟨_, rfl, ⟨rfl, rfl, rfl, ?_, ?_, ?_, ?_⟩⟩
      all_goals simp [kind, Instruction.bare]

theorem Instruction.Renders.name? {i : Instruction} {r : Routine} {start value : Nat} {op : Operation}
    (renders : i.Renders r start op value) (kind : op.operand = .constant) :
    i.name? = Machine.nameAt? r value := by
  have constant : i.constant = r.constants[value]? := renders.constant.trans (if_pos kind)
  unfold Instruction.name? Machine.nameAt?
  exact congrArg (fun c => match c with | some (Constant.text name) => some name | _ => none) constant

namespace Machine

section

variable {m : Machine} {frame : Frame} {rest : List Frame} {op : Operation} {i : Instruction} {value : Nat}
  (renders : i.Renders frame.routine frame.ip.toNat op value) (inside : 0 ≤ frame.ip)

include renders inside

theorem passed_eq : (i.offset : Int) + i.size = (frame.fetch op).ip := by
  rw [renders.offset, renders.size, Frame.fetch]
  dsimp only
  omega

theorem target_forward (kind : op.operand = .jump) :
    i.target = some ((frame.fetch op).ip + value) := by
  rw [renders.target, ← passed_eq renders inside, kind, renders.offset]
  rfl

theorem target_back (kind : op.operand = .loop) :
    i.target = some ((frame.fetch op).ip + -value) := by
  rw [renders.target, ← passed_eq renders inside, kind, renders.offset]
  rfl

end

def onward (m : Machine) (i : Instruction) : Option Int :=
  match Operation.ofByte? i.byte with
  | some .jump | some .loop => i.target
  | some .jumpIfFalse =>
    if m.stack.top?.any Value.falsey then i.target else some (i.offset + i.size)
  | _ => some (i.offset + i.size)

def Continues (m : Machine) (frame : Frame) (rest : List Frame) (i : Instruction) (after : Machine) :
    Prop :=
  if Operation.ofByte? i.byte = some .return then after.frames = rest
  else
    ∃ entered ip, after.frames = entered ++ { frame with last := frame.ip, ip } :: rest ∧
      entered.length ≤ 1 ∧ m.onward i = some ip

theorem top?_of_peek {m : Machine} {v : Value} (peeked : m.peek 0 = .ok v) : m.stack.top? = some v := by
  have present : 0 < m.stack.live.size := peek_present peeked
  rw [peek, Stack.peek?, if_pos present] at peeked
  rw [Stack.top?, Array.back?]
  split at peeked
  · cases peeked
  · rename_i found
    rw [← Except.ok.inj peeked]
    exact found

section

variable {m after : Machine} {frame : Frame} {rest : List Frame} {op : Operation} {i : Instruction}
  {value : Nat} (renders : i.Renders frame.routine frame.ip.toNat op value) (inside : 0 ≤ frame.ip)

include renders inside

theorem Follows.continues
    (follows : (m.fetch frame rest op).Follows (frame.fetch op) rest op value after) :
    m.Continues frame rest i after := by
  have known : Operation.ofByte? i.byte = some op := by rw [renders.byte, Operation.ofByte?_byte]
  have passed := passed_eq renders inside
  have same : op ≠ .return → (m.fetch frame rest op).Beside after →
      m.onward i = some ((i.offset : Int) + i.size) → m.Continues frame rest i after := by
    intro other beside straight
    rw [Continues, known, if_neg (by simpa using other)]
    refine ⟨[], _, ?_, Nat.zero_le _, straight⟩
    rw [beside.frames, passed]
    rfl
  cases op with
  | jump =>
      rw [Continues, known, if_neg nofun]
      refine ⟨[], _, follows.frames, Nat.zero_le _, ?_⟩
      rw [Machine.onward, known]
      exact target_forward renders inside rfl
  | loop =>
      rw [Continues, known, if_neg nofun]
      refine ⟨[], _, follows.frames, Nat.zero_le _, ?_⟩
      rw [Machine.onward, known]
      exact target_back renders inside rfl
  | jumpIfFalse =>
      obtain ⟨v, peeked, reframed⟩ := follows
      have top : m.stack.top? = some v := by
        rw [← m.fetch_stack frame rest .jumpIfFalse]
        exact top?_of_peek peeked
      rw [Continues, known, if_neg nofun]
      refine ⟨[], _, reframed.frames, Nat.zero_le _, ?_⟩
      rw [Machine.onward, known, top]
      simp only [Option.any_some]
      split
      · exact target_forward renders inside rfl
      · exact congrArg some passed
  | call =>
      obtain ⟨entered, called⟩ := follows
      rw [Continues, known, if_neg nofun]
      refine ⟨entered, _, called.reframed.frames, called.one, ?_⟩
      rw [Machine.onward, known]
      exact congrArg some passed
  | «return» =>
      rw [Continues, known, if_pos rfl]
      exact follows.frames
  | _ =>
      refine same nofun follows ?_
      rw [Machine.onward, known]

end

theorem instruction_faultOf {m : Machine} {frame : Frame} {rest : List Frame} {i : Instruction}
    (frames : m.frames = frame :: rest) (decoded : frame.routine.decode frame.last = .ok i)
    (cause : Cause) : (m.faultOf cause).instruction = i.text := by
  rw [faultOf, frames]
  simp only [decoded]

end Machine

/-- Natives pass on only faults that the machine itself has handed to them. -/
def Host.PassesOwn (host : Host) : Prop := ∀ own n args, (host n args).Vouches own

namespace Machine

/-- A step of the innermost call is what decoding at its offset tells, and so is where it goes on and
the instruction a fault names. -/
structure Agrees (host : Host) (m : Machine) (frame : Frame) (rest : List Frame) (i : Instruction) :
    Prop where
  decoded : frame.routine.decode frame.ip = .ok i
  obeyed : m.step host = obey host (m.fetchByte frame rest i.byte i.size) frame.base i
  continues : ∀ after, m.step host = .next after → m.Continues frame rest i after
  ended : ∀ after, m.step host = .finished after →
    Operation.ofByte? i.byte = some .return ∧ rest = []
  named : host.PassesOwn → ∀ f after, m.step host = .fault f after →
    f.instruction = i.text ∧ i.text ≠ "<unknown>"

section

variable {host : Host} {m : Machine} {frame : Frame} {rest : List Frame}

end

end Machine

theorem Host.standard_passesOwn : Host.standard.PassesOwn := by
  intro own n args
  rw [Host.standard]
  split
  · exact fun d => trivial
  · exact fun d => trivial
  · trivial

end Reckoner
