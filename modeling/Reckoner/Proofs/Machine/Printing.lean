import Reckoner.Proofs.Machine.Contents
import Reckoner.Proofs.Machine.Legible

/-!
What a script prints. Among the standard natives compiled code makes only values that can be shown on a
line, and all that a run writes is one such line for every value it prints, in order.
-/

namespace Reckoner

theorem Host.standard_keeps {P : Value → Prop} (numbers : ∀ d, P (.number d)) :
    Host.standard.Keeps P := by
  intro n args m written _ keeps
  rw [Machine.performBusy, Host.standard]
  split
  · exact ⟨numbers _, keeps.reworld _⟩
  · exact ⟨numbers _, keeps.reworld _⟩
  · exact keeps

theorem Machine.new_scripted (maxFrames : Int) (world : World) (name : String) (v : Value)
    (found : (Machine.new maxFrames world).global? name = some v) : v.Scripted := by
  obtain ⟨n, standard, rfl⟩ := Machine.new_global found
  exact standard

namespace Machine

/-- What the steps from a machine on print, up to the end of the run. -/
inductive Prints (host : Host) : Machine → List Value → Prop where
  | last {m : Machine} (ends : ∀ after, m.step host ≠ .next after) : Prints host m m.printed?.toList
  | next {m after : Machine} {vs : List Value} (stepped : m.step host = .next after)
    (later : Prints host after vs) : Prints host m (m.printed?.toList ++ vs)

/-- What a script prints on a machine. One that cannot begin prints nothing. -/
def ScriptPrints (host : Host) (r : Routine) (m : Machine) (vs : List Value) : Prop :=
  (∃ first, m.Starts r [] first ∧ first.Prints host vs) ∨ (∀ first, ¬m.Starts r [] first) ∧ vs = []

theorem Orderly.makes {m : Machine} (orderly : m.Orderly) {frame : Frame} {rest : List Frame}
    {op : Operation} {operand : Nat} (frames : m.frames = frame :: rest)
    (byte : byteAt? frame.routine frame.ip = some op.byte)
    (read : frame.routine.operandAt? (frame.ip.toNat + 1) op.operand.width = some operand) :
    op.Makes Value.Scripted m.stack frame.routine operand := by
  obtain ⟨here, others, depth, within, p, ip, flows⟩ := orderly
  obtain ⟨rfl, rfl⟩ := List.cons.inj (frames.symm.trans within.frames)
  obtain ⟨unit, isGlobal, f, marked, carries⟩ := within.routine.carries
  obtain ⟨d, reached⟩ := carries.reached flows
  obtain ⟨byteToo, readToo⟩ := fetched ip reached
  have same : d.op = op := by
    have bytes := Option.some.inj (byteToo.symm.trans byte)
    have known := Operation.ofByte?_byte d.op
    rw [bytes, Operation.ofByte?_byte] at known
    exact (Option.some.inj known).symm
  subst same
  have index : d.operand = operand := Option.some.inj (readToo.symm.trans read)
  constructor
  case truth => exact fun b => trivial
  case computed => exact fun f _ a b d _ _ _ => trivial
  case negated => exact fun _ d _ => trivial
  case loaded =>
    intro loads v found
    obtain ⟨c, stored, accepts⟩ := reached.constant (by rw [loads]; rfl)
    rw [← index, stored] at found
    rw [loads] at accepts
    rcases accepts with ⟨n, rfl⟩ | ⟨q, rfl⟩
    · cases found
      trivial
    · cases found
      exact within.routine.nested (Array.mem_of_getElem? stored)

section

variable {host : Host} (respects : host.Respects) (natives : host.Keeps Value.Scripted)

include natives

theorem Keeps.scripted_step {m : Machine} (orderly : m.Orderly) {written : Array (Channel × String)}
    (keeps : m.Keeps Value.Scripted written) :
    (m.step host).machine.Keeps Value.Scripted (written ++ Value.lines m.printed?.toList) :=
  keeps.step natives fun _ _ _ _ frames byte read => orderly.makes frames byte read

include respects

theorem Reaches.scripted {first state : Machine} (start : first.Orderly)
    (contains : first.Contains Value.Scripted) (reaches : Reaches host first state) :
    state.Contains Value.Scripted := by
  induction reaches with
  | here => exact contains
  | @next m after reaches stepped ih =>
      have whole : m.Keeps Value.Scripted m.written := ⟨ih, rfl⟩
      have kept := whole.scripted_step natives (reaches.orderly respects.serves start)
      rw [stepped] at kept
      exact kept.toContains

theorem Prints.scripted {m : Machine} (orderly : m.Orderly) (contains : m.Contains Value.Scripted)
    {vs : List Value} (prints : m.Prints host vs) : ∀ v ∈ vs, v.Scripted := by
  induction prints with
  | last ends => exact contains.printed
  | @next m after vs stepped later ih =>
      have safe := step_orderly respects.serves orderly
      rw [stepped] at safe
      have rest := ih safe (Reaches.scripted respects natives orderly contains (.next .here stepped))
      intro v member
      rcases List.mem_append.mp member with first | others
      · exact contains.printed v first
      · exact rest v others

/-- A run that comes to its end has written what its steps print, and nothing else. -/
theorem run_prints {m : Machine} (orderly : m.Orderly) {written : Array (Channel × String)}
    (keeps : m.Keeps Value.Scripted written) (fuel : Nat) :
    (∃ after, m.run host fuel = .exhausted after) ∨
      ∃ vs, m.Prints host vs ∧
        (m.run host fuel).machine.Keeps Value.Scripted (written ++ Value.lines vs) := by
  induction fuel generalizing m written with
  | zero => exact .inl ⟨m, rfl⟩
  | succ fuel ih =>
      have kept := keeps.scripted_step natives orderly
      have safe := step_orderly respects.serves orderly
      rw [run]
      cases stepped : m.step host with
      | next after =>
          rw [stepped] at kept safe
          rcases ih safe kept with ⟨last, exhausted⟩ | ⟨vs, prints, later⟩
          · exact .inl ⟨last, exhausted⟩
          · refine .inr ⟨_, .next stepped prints, ?_⟩
            rw [Value.lines_append, ← Array.append_assoc]
            exact later
      | exhausted after =>
          rw [stepped] at safe
          exact safe.elim
      | _ =>
          rw [stepped] at kept
          exact .inr ⟨_, .last (by simp [stepped]), kept⟩

variable {m : Machine} (rests : m.Rests) {written : Array (Channel × String)}
  (keeps : m.Keeps Value.Scripted written) {r : Routine} (compiled : r.Compiled)

include rests keeps compiled

theorem ScriptPrints.scripted {vs : List Value} (prints : m.ScriptPrints host r vs) :
    ∀ v ∈ vs, v.Scripted := by
  rcases prints with ⟨first, starts, prints⟩ | ⟨-, rfl⟩
  · have ready := keeps.starts compiled (List.forall_mem_nil _) starts
    exact prints.scripted respects natives (rests.orderly compiled (List.forall_mem_nil _) starts)
      ready.toContains
  · exact List.forall_mem_nil _

theorem invoke_prints (fuel : Nat) :
    (∃ after, invoke host fuel (.routine r) [] m.prepare = .exhausted after) ∨
      ∃ vs, m.ScriptPrints host r vs ∧
        (invoke host fuel (.routine r) [] m.prepare).machine.Keeps Value.Scripted
          (written ++ Value.lines vs) := by
  have begun : ∀ v ∈ [Value.routine r], v.Scripted := by
    intro v member
    rw [List.mem_singleton.mp member]
    exact compiled
  cases fuel with
  | zero => exact .inl ⟨_, by rw [invoke]⟩
  | succ fuel =>
      rw [invoke]
      cases pushed : m.prepare.pushAll [.routine r] with
      | error left =>
          refine .inr ⟨[], .inr ⟨?_, rfl⟩, ?_⟩
          · rintro first ⟨full, other, -⟩
            cases pushed.symm.trans other
          · rw [Value.lines_nil, Array.append_empty]
            exact keeps.prepare.pushAll begun (.inr pushed)
      | ok full =>
          rcases enter_cases full r 0 with ⟨first, entered⟩ | ⟨f, raised, -⟩
          · have starts : m.Starts r [] first := ⟨full, pushed, entered⟩
            have orderly := rests.orderly compiled (List.forall_mem_nil _) starts
            have ready := keeps.starts compiled (List.forall_mem_nil _) starts
            simp only [callValue, List.length_nil, entered]
            rcases run_prints respects natives orderly ready fuel with exhausted | ⟨vs, prints, kept⟩
            · exact .inl exhausted
            · exact .inr ⟨vs, .inl ⟨first, starts, prints⟩, kept⟩
          · simp only [callValue, List.length_nil, raised]
            refine .inr ⟨[], .inr ⟨?_, rfl⟩, ?_⟩
            · rintro first ⟨other, pushedToo, entered⟩
              obtain rfl := Except.ok.inj (pushed.symm.trans pushedToo)
              cases raised.symm.trans entered
            · rw [Value.lines_nil, Array.append_empty]
              exact keeps.prepare.pushAll begun (.inl pushed)

theorem interpret_prints (fuel : Nat) :
    (∃ after, m.interpret host fuel r = .exhausted after) ∨
      ∃ vs told, m.ScriptPrints host r vs ∧ (∀ entry ∈ told, entry.1 = Channel.err) ∧
        (m.interpret host fuel r).machine.Keeps Value.Scripted (written ++ Value.lines vs ++ told) := by
  cases fuel with
  | zero => exact .inl ⟨m, by rw [interpret]⟩
  | succ fuel =>
      rw [interpret, if_neg (by rw [rests.idle]; exact Bool.false_ne_true)]
      rcases invoke_prints respects natives rests keeps compiled fuel with
        ⟨after, exhausted⟩ | ⟨vs, prints, kept⟩
      · rw [exhausted]
        exact .inl ⟨after, rfl⟩
      · generalize invoke host fuel (.routine r) [] m.prepare = ending at kept ⊢
        cases ending with
        | exhausted after => exact .inl ⟨after, rfl⟩
        | fault f after =>
            refine .inr ⟨vs, #[(.err, f.report)], prints, by simp, ?_⟩
            exact kept.abandon f m.height
        | _ =>
            refine .inr ⟨vs, #[], prints, by simp, ?_⟩
            rw [Array.append_empty]
            exact kept

end

def addOutput (text : String) (entry : Channel × String) : String :=
  if entry.1 = Channel.out then text ++ entry.2 else text

theorem foldl_elsewhere {told : List (Channel × String)}
    (elsewhere : ∀ entry ∈ told, entry.1 = Channel.err) (text : String) :
    told.foldl addOutput text = text := by
  induction told with
  | nil => rfl
  | cons entry rest ih =>
      have other : entry.1 ≠ Channel.out := by
        rw [elsewhere entry List.mem_cons_self]
        decide
      rw [List.foldl_cons, addOutput, if_neg other]
      exact ih fun e member => elsewhere e (List.mem_cons_of_mem entry member)

theorem foldl_lines (vs : List Value) (text : String) :
    ((Value.lines vs).toList.foldl addOutput text).toList =
      text.toList ++ vs.flatMap fun v => v.display.toList ++ ['\n'] := by
  induction vs generalizing text with
  | nil => simp
  | cons v rest ih =>
      have later := ih (text ++ (v.display ++ "\n"))
      rw [String.toList_append, String.toList_append] at later
      rw [List.flatMap_cons, ← List.append_assoc]
      exact later

theorem Keeps.output {P : Value → Prop} {m : Machine} {vs : List Value} {told : Array (Channel × String)}
    (keeps : m.Keeps P (Value.lines vs ++ told)) (elsewhere : ∀ entry ∈ told, entry.1 = Channel.err) :
    (m.textOn .out).toList = vs.flatMap fun v => v.display.toList ++ ['\n'] := by
  have others : ∀ entry ∈ told.toList, entry.1 = Channel.err :=
    fun entry member => elsewhere entry (Array.mem_toList_iff.mp member)
  have text : m.textOn .out = m.written.foldl addOutput "" := rfl
  rw [text, keeps.written, ← Array.foldl_toList, Array.toList_append, List.foldl_append,
    foldl_elsewhere others, foldl_lines]
  rfl

end Machine

end Reckoner
