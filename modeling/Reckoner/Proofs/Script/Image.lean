import Mathlib.Tactic.Choose
import Reckoner.Proofs.Script.Pool

/-!
Routines as images of functions. A routine implements a function if its bytes are the code of the
function, every operand is stored without loss, and its routines among the constants implement the
functions declared inside.
-/

namespace Reckoner.Script

/-- An operand fits if no byte of it is lost and a constant it addresses is there. -/
structure Directive.Fits (pool : Pool) (d : Directive) : Prop where
  width : d.operand < Nat.pow 256 d.op.operand.width
  stored : d.op.operand = .constant → d.operand < pool.size

def Slot.Fits (pool : Pool) : Slot → Prop
  | .fixed d => d.Fits pool
  | .exit => True

theorem Directive.fits_plain (pool : Pool) {op : Operation} (plain : op.operand = .none) :
    Directive.Fits pool ⟨op, 0⟩ := by
  constructor
  · rw [plain]
    exact Nat.one_pos
  · intro constant
    rw [plain] at constant
    exact absurd constant (by decide)

theorem Slot.Fits.draft {pool : Pool} {slot : Slot} (fits : slot.Fits pool) :
    slot.draft.Fits pool := by
  cases slot with
  | fixed d => exact fits
  | exit => exact ⟨by decide, fun constant => absurd constant (by decide)⟩

structure Marked where
  directive : Directive
  line : Nat

def markedBytes (marked : List Marked) : List UInt8 := marked.flatMap fun m => m.directive.bytes

def markedLines (marked : List Marked) : List Int :=
  marked.flatMap fun m => List.replicate m.directive.size (m.line : Int)

structure Carries (unit : Nat) (isGlobal : Bool) (r : Routine) (f : Function)
    (marked : List Marked) : Prop where
  identity : r.identity = ⟨unit, f.index⟩
  name : r.name = f.name
  arity : r.arity = f.parameters.length
  code : r.code.toList = markedBytes marked
  lines : r.lines.toList = markedLines marked
  directives : marked.map Marked.directive = f.code r.constants unit isGlobal
  ordered : (marked.map Marked.line).Pairwise (· ≤ ·)
  positive : ∀ line ∈ marked.map Marked.line, 1 ≤ line
  fits : ∀ d ∈ f.code r.constants unit isGlobal, d.Fits r.constants

/-- The routine is what a function was compiled to. Each function inside has its routine in the
pool, and the pool has no other routines. -/
inductive Implements (unit : Nat) : (isGlobal : Bool) → Routine → Function → Prop where
  | intro {isGlobal : Bool} {r : Routine} {f : Function} {marked : List Marked}
    (carries : Carries unit isGlobal r f marked)
    (image : Function → Routine) (source : Routine → Function)
    (stored : ∀ g ∈ functionsOf f.body,
      r.constants[Pool.findRoutine r.constants ⟨unit, g.index⟩]? = some (.routine (image g)))
    (images : ∀ g ∈ functionsOf f.body, Implements unit false (image g) g)
    (known : ∀ q, .routine q ∈ r.constants → source q ∈ functionsOf f.body)
    (sources : ∀ q, .routine q ∈ r.constants → Implements unit false q (source q)) :
    Implements unit isGlobal r f

def Linked (unit : Nat) (pool : Pool) (g : Function) : Prop :=
  ∃ q, pool[pool.findRoutine ⟨unit, g.index⟩]? = some (.routine q) ∧ Implements unit false q g

namespace Implements

variable {unit : Nat} {isGlobal : Bool} {r : Routine} {f : Function}

theorem of_linked {marked : List Marked} (carries : Carries unit isGlobal r f marked)
    (linked : ∀ g ∈ functionsOf f.body, Linked unit r.constants g)
    (known : ∀ q, .routine q ∈ r.constants → ∃ g ∈ functionsOf f.body, Implements unit false q g) :
    Implements unit isGlobal r f := by
  have : Nonempty Function := ⟨f⟩
  choose! image stored images using linked
  choose! source declared sources using known
  exact .intro carries image source stored images declared sources

theorem carries (implements : Implements unit isGlobal r f) :
    ∃ marked, Carries unit isGlobal r f marked := by
  cases implements with
  | intro carries => exact ⟨_, carries⟩

theorem arity (implements : Implements unit isGlobal r f) : r.arity = f.parameters.length := by
  obtain ⟨marked, carries⟩ := implements.carries
  exact carries.arity

theorem linked (implements : Implements unit isGlobal r f) {g : Function}
    (member : g ∈ functionsOf f.body) : Linked unit r.constants g := by
  cases implements with
  | intro _ image _ stored images => exact ⟨image g, stored g member, images g member⟩

theorem nested (implements : Implements unit isGlobal r f) {q : Routine}
    (member : .routine q ∈ r.constants) :
    ∃ g ∈ functionsOf f.body, Implements unit false q g := by
  cases implements with
  | intro _ _ source _ _ known sources => exact ⟨source q, known q member, sources q member⟩

end Implements

end Reckoner.Script
