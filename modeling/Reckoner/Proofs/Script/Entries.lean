import Reckoner.Proofs.Script.Pool

/-!
The constants of a tree, in the order in which they are met. A pool holds each of them once, at the
place where an equal one was met first.
-/

namespace Reckoner.Script

/-- A constant as a tree knows it. Functions are known by their numbers. -/
inductive Entry where
  | number (value : Decimal)
  | name (text : String)
  | function (index : Nat)

namespace Entry

def same : Entry → Entry → Bool
  | .number a, .number b => a.same b
  | .name a, .name b => a == b
  | .function a, .function b => a == b
  | _, _ => false

def ofConstant? : Constant → Option Entry
  | .number d => some (.number d)
  | .text s => some (.name s)
  | .routine r => some (.function r.identity.index)
  | .bool _ | .foreign => none

end Entry

def keep (es : List Entry) (e : Entry) : List Entry :=
  if es.any fun old => old.same e then es else es ++ [e]

def gather (es new : List Entry) : List Entry := new.foldl keep es

@[simp] theorem gather_nil (es : List Entry) : gather es [] = es := rfl

theorem gather_append (es a b : List Entry) : gather es (a ++ b) = gather (gather es a) b :=
  List.foldl_append

theorem length_le_keep (es : List Entry) (e : Entry) : es.length ≤ (keep es e).length := by
  rw [keep]
  split
  · exact Nat.le_refl _
  · rw [List.length_append]
    omega

theorem length_le_gather (es new : List Entry) : es.length ≤ (gather es new).length := by
  induction new generalizing es with
  | nil => exact Nat.le_refl _
  | cons e rest ih => exact Nat.le_trans (length_le_keep es e) (ih (keep es e))

def Pool.Holds (pool : Pool) (es : List Entry) : Prop :=
  pool.toList.map Entry.ofConstant? = es.map some

/-! The entries of trees -/

def nameEntries (scope : List String) (name : String) : List Entry :=
  if (slotOf name scope).isSome then [] else [.name name]

section

variable (scope : List String)

mutual

def Expression.entries : Expression → List Entry
  | .number d => [.number d]
  | .bool _ => []
  | .read name => nameEntries scope name
  | .assign name e => nameEntries scope name ++ e.entries
  | .update name _ e => nameEntries scope name ++ e.entries
  | .negate e => e.entries
  | .not e => e.entries
  | .binary _ a b => a.entries ++ b.entries
  | .and a b => a.entries ++ b.entries
  | .or a b => a.entries ++ b.entries
  | .call f args => f.entries ++ entriesOfAll args

def entriesOfAll : List Expression → List Entry
  | [] => []
  | e :: rest => e.entries ++ entriesOfAll rest

end

def entriesOfOptional : Option Expression → List Entry
  | some e => e.entries scope
  | none => []

def Initializer.entries : Initializer → List Entry
  | .none => []
  | .var _ value => entriesOfOptional scope value
  | .expression e => e.entries scope

end

def declaredEntries (isGlobal : Bool) (name : String) : List Entry :=
  if isGlobal then [.name name] else []

mutual

def Statement.entries (scope : List String) : Statement → List Entry
  | .empty | .break | .continue => []
  | .print e => e.entries scope
  | .expression e => e.entries scope
  | .ifElse c s t => c.entries scope ++ s.entries scope ++ t.entries scope
  | .while c s => c.entries scope ++ s.entries scope
  | .for first c step s =>
    let inner := first.names ++ scope
    first.entries scope ++ entriesOfOptional inner c ++ entriesOfOptional inner step
      ++ s.entries inner
  | .return value => entriesOfOptional scope value
  | .block body => entriesOfBody false scope body

def Declaration.entries (isGlobal : Bool) (scope : List String) : Declaration → List Entry
  | .var name value => declaredEntries isGlobal name ++ entriesOfOptional scope value
  | .function f => declaredEntries isGlobal f.name ++ [.function f.index]
  | .statement s => s.entries scope

def entriesOfBody (isGlobal : Bool) (scope : List String) : List Declaration → List Entry
  | [] => []
  | d :: rest => d.entries isGlobal scope ++ entriesOfBody isGlobal (d.names isGlobal ++ scope) rest

end

/-- The constants of a function, each of them once. -/
def Function.entries (f : Function) (isGlobal : Bool) : List Entry :=
  gather [] (entriesOfBody isGlobal f.scope f.body
    ++ entriesOfOptional (f.innerScope isGlobal) f.result)

end Reckoner.Script
