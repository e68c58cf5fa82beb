import Reckoner.Compiler.State

/-!
Scopes. A name denotes the innermost live local of the routine being compiled, otherwise a global.
-/

namespace Reckoner.Compiler

def emitPops (s : Compiler) : Nat → Compiler
  | 0 => s
  | 1 => s.emitOp .pop
  | n => s.emitWith .popN n.toUInt8

def beginScope (s : Compiler) : Compiler :=
  { s with draft := { s.draft with depth := s.draft.depth + 1 } }

def Local.isDeeper (depth : Nat) (l : Local) : Bool := l.depth.any (depth < ·)

def endScope (s : Compiler) : Compiler :=
  let depth := s.draft.depth - 1
  let kept := s.draft.locals.dropWhile (Local.isDeeper depth)
  let popped := s.draft.locals.length - kept.length
  { s with draft := { s.draft with depth, locals := kept } }.emitPops popped

def addLocal (s : Compiler) (name : String) : Compiler :=
  if s.draft.locals.length = maxLocals then s.fault .tooManyLocals
  else
    { s with draft := { s.draft with locals := { name, depth := none } :: s.draft.locals } }

def Local.isInScope (depth : Nat) (l : Local) : Bool := !l.depth.any (· < depth)

/-- Makes the name just read a local when inside a scope. Globals need no declaration. -/
def declareVariable (s : Compiler) : Compiler :=
  if s.draft.depth = 0 then s
  else
    let name := s.previous.lexeme
    let inScope := s.draft.locals.takeWhile (Local.isInScope s.draft.depth)
    let s := if inScope.any (·.name == name) then s.fault .redeclared else s
    s.addLocal name

def markInitialized (s : Compiler) : Compiler :=
  if s.draft.depth = 0 then s
  else
    match s.draft.locals with
    | [] => s
    | l :: rest =>
      { s with
        draft := { s.draft with locals := { l with depth := some s.draft.depth } :: rest } }

/-- The slot of the innermost local with a name, and whether it can be read. Slot zero has no
name. -/
def findSlot (name : String) : List Local → Option (Nat × Bool)
  | [] => none
  | [_] => none
  | l :: rest => if l.name == name then some (rest.length, l.depth.isSome) else findSlot name rest

def pushLoop (s : Compiler) (start : Nat) : Compiler :=
  let loop := { start, depth := s.draft.depth, breaks := [] }
  { s with draft := { s.draft with loops := loop :: s.draft.loops } }

def popLoop (s : Compiler) : Compiler :=
  match s.draft.loops with
  | [] => s
  | loop :: rest =>
    loop.breaks.foldl patchJump { s with draft := { s.draft with loops := rest } }

def addBreak (s : Compiler) (position : Nat) : Compiler :=
  match s.draft.loops with
  | [] => s
  | loop :: rest =>
    let loop := { loop with breaks := loop.breaks ++ [position] }
    { s with draft := { s.draft with loops := loop :: rest } }

/-- Pops the locals declared inside a loop without forgetting them. -/
def discardLoopLocals (s : Compiler) (loop : Loop) : Compiler :=
  let named := s.draft.locals.dropLast
  s.emitPops (named.takeWhile (Local.isDeeper loop.depth)).length

/-- Reads the name of a variable. The byte addresses a global's name. -/
def parseVariable (s : Compiler) (c : Complaint) : Compiler × UInt8 :=
  let s := (s.consume .identifier c).declareVariable
  if 0 < s.draft.depth then (s, 0) else s.constant (.text s.previous.lexeme)

def defineVariable (s : Compiler) (global : UInt8) : Compiler :=
  if 0 < s.draft.depth then s.markInitialized else s.emitWith .defineGlobal global

end Reckoner.Compiler
