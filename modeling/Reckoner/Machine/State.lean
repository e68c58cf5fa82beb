import Reckoner.Machine.Fault
import Reckoner.Machine.Stack
import Std.Data.ExtTreeMap

/-!
The state of the machine. The stack and the globals outlive a run; frames exist only during one.
-/

namespace Reckoner

/-- A call in progress. The offset `last` is that of the instruction being executed. -/
structure Frame where
  routine : Routine
  ip : Int
  base : Nat
  last : Int

def Frame.info (f : Frame) : FrameInfo :=
  { routine := f.routine.display, line := f.routine.lineAt f.last, offset := f.last }

inductive Channel where
  | out
  | err
  deriving Repr, DecidableEq, Inhabited

structure TraceEntry where
  byte : UInt8
  routine : String
  line : Int
  offset : Int
  depth : Nat
  deriving Repr, DecidableEq, Inhabited

structure World where
  nanoseconds : Nat
  seed : Nat
  deriving Repr, DecidableEq, Inhabited

namespace World

def readClock (w : World) : Decimal × World :=
  ({ coefficient := w.nanoseconds, exponent := -9 }, { w with nanoseconds := w.nanoseconds + 1 })

/-- A number of sixteen digits from zero up to, and without, one. -/
def draw (w : World) : Decimal × World :=
  let seed := (1442695040888963407 + 6364136223846793005 * w.seed) % 0x10000000000000000
  let drawn := 10000000000000000 * seed / 0x10000000000000000
  ({ coefficient := drawn, exponent := -16 }, { w with seed })

end World

abbrev Globals := Std.ExtTreeMap String Value compare

structure Machine where
  stack : Stack
  frames : List Frame
  globals : Globals
  maxFrames : Nat
  count : Nat
  written : Array (Channel × String)
  trace : Option (Array TraceEntry)
  world : World
  units : Nat

namespace Machine

def defaultMaxFrames : Nat := 64

def slotsPerFrame : Nat := 256

@[inline] def maxHeight (m : Machine) : Nat := m.maxFrames * slotsPerFrame

def isRunning (m : Machine) : Bool := !m.frames.isEmpty

@[inline] def height (m : Machine) : Nat := m.stack.height

def setMaxFrames (m : Machine) (n : Int) : Machine :=
  { m with maxFrames := if n ≤ 0 then defaultMaxFrames else n.toNat, frames := [] }

def define (m : Machine) (name : String) (v : Value) : Machine :=
  { m with globals := m.globals.insert name v }

def global? (m : Machine) (name : String) : Option Value := m.globals[name]?

def globalNames (m : Machine) : List String := m.globals.keys

def write (m : Machine) (channel : Channel) (text : String) : Machine :=
  { m with written := m.written.push (channel, text) }

def textOn (m : Machine) (channel : Channel) : String :=
  m.written.foldl (fun s (c, text) => if c = channel then s ++ text else s) ""

def allText (m : Machine) : String := m.written.foldl (fun s (_, text) => s ++ text) ""

def clearWritten (m : Machine) : Machine := { m with written := #[] }

def standardNatives : List Native :=
  [{ name := "clock", arity := 0, code := "clock", binding := 0 },
    { name := "random", arity := 0, code := "random", binding := 0 }]

def new (maxFrames : Int) (world : World) : Machine :=
  let bare : Machine :=
    { stack := .empty, frames := [], globals := ∅, maxFrames := defaultMaxFrames, count := 0,
      written := #[], trace := none, world, units := 0 }
  standardNatives.foldl (fun m n => m.define n.name (.native n)) (bare.setMaxFrames maxFrames)

def duplicate (m : Machine) : Machine :=
  { m with
    stack := .empty, frames := [], count := 0, written := #[],
    trace := m.trace.map fun _ => #[] }

def freshUnit (m : Machine) : Nat × Machine := (m.units, { m with units := m.units + 1 })

def faultOf (m : Machine) (cause : Cause) : Fault :=
  { cause
    frame :=
      match m.frames with
      | [] => .blank
      | frame :: _ => frame.info
    calls := m.frames.map Frame.info
    instruction :=
      match m.frames with
      | [] => ""
      | frame :: _ =>
        match frame.routine.decode frame.last with
        | .ok i => i.text
        | .error _ => "<unknown>" }

@[inline] def pop (m : Machine) : Except Cause (Value × Machine) :=
  match m.stack.top? with
  | none => .error .stackEmpty
  | some v => .ok (v, { m with stack := m.stack.below v })

@[inline] def peek (m : Machine) (distance : Nat) : Except Cause Value :=
  match m.stack.peek? distance with
  | none => .error .peekRange
  | some v => .ok v

@[inline] def push (m : Machine) (v : Value) : Except Cause Machine :=
  if m.maxHeight ≤ m.height then .error .stackFull else .ok { m with stack := m.stack.push v }

end Machine

end Reckoner
