import Reckoner.Compiler.Basic
import Reckoner.Proofs.Script.Tree

/-!
From tokens to trees and nothing else. The reader climbs precedences as the compiler does and fails
where the compiler would have to report a token out of place.
-/

namespace Reckoner.Script

namespace Reader

open Compiler

def kindAt : List Token → Kind
  | [] => .eof
  | t :: _ => t.kind

def expect (kind : Kind) : List Token → Option (List Token)
  | [] => none
  | t :: ts => if t.kind = kind then some ts else none

def identifier : List Token → Option (String × List Token)
  | [] => none
  | t :: ts => if t.kind = .identifier then some (t.lexeme, ts) else none

mutual

def expression : (fuel : Nat) → List Token → Option (Expression × List Token)
  | 0, _ => none
  | fuel + 1, ts => climb fuel Precedence.assignment ts

def climb : (fuel : Nat) → (level : Precedence) → List Token → Option (Expression × List Token)
  | 0, _, _ => none
  | fuel + 1, level, ts => do
    let assignable : Bool := level ≤ Precedence.assignment
    let (left, ts) ← operand fuel assignable ts
    let (e, ts) ← operators fuel level left ts
    if assignable && isAssignment (kindAt ts) then none else some (e, ts)

def operand : (fuel : Nat) → (assignable : Bool) → List Token → Option (Expression × List Token)
  | 0, _, _ => none
  | _ + 1, _, [] => none
  | fuel + 1, assignable, t :: ts =>
    match t.kind with
    | .number =>
      match Decimal.parse t.lexeme with
      | .ok d => some (.number d, ts)
      | .error _ => none
    | .true => some (.bool true, ts)
    | .false => some (.bool false, ts)
    | .leftParen => do
      let (e, ts) ← expression fuel ts
      let ts ← expect .rightParen ts
      some (e, ts)
    | .minus => do
      let (e, ts) ← climb fuel Precedence.unary ts
      some (.negate e, ts)
    | .bang => do
      let (e, ts) ← climb fuel Precedence.unary ts
      some (.not e, ts)
    | .identifier => named fuel assignable t.lexeme ts
    | _ => none

def named : (fuel : Nat) → (assignable : Bool) → (name : String) → List Token →
    Option (Expression × List Token)
  | 0, _, _, _ => none
  | fuel + 1, assignable, name, ts =>
    if assignable && kindAt ts == .equal then do
      let (e, ts) ← expression fuel (ts.drop 1)
      some (.assign name e, ts)
    else
      match (if assignable then Operator.ofAssignment? (kindAt ts) else none) with
      | some op => do
        let (e, ts) ← expression fuel (ts.drop 1)
        some (.update name op e, ts)
      | none => some (.read name, ts)

def operators : (fuel : Nat) → (level : Precedence) → (left : Expression) → List Token →
    Option (Expression × List Token)
  | 0, _, _, _ => none
  | fuel + 1, level, left, ts =>
    if level ≤ Precedence.ofKind (kindAt ts) then do
      let (e, ts) ← operator fuel left ts
      operators fuel level e ts
    else some (left, ts)

def operator : (fuel : Nat) → (left : Expression) → List Token → Option (Expression × List Token)
  | 0, _, _ => none
  | _ + 1, _, [] => none
  | fuel + 1, left, t :: ts =>
    match t.kind with
    | .leftParen => do
      let (args, ts) ← if kindAt ts == .rightParen then some ([], ts) else arguments fuel ts
      let ts ← expect .rightParen ts
      some (.call left args, ts)
    | .and => do
      let (right, ts) ← climb fuel Precedence.and ts
      some (.and left right, ts)
    | .or => do
      let (right, ts) ← climb fuel Precedence.or ts
      some (.or left right, ts)
    | kind => do
      let op ← Operator.ofKind? kind
      let (right, ts) ← climb fuel (Precedence.ofRight kind) ts
      some (.binary op left right, ts)

def arguments : (fuel : Nat) → List Token → Option (List Expression × List Token)
  | 0, _ => none
  | fuel + 1, ts => do
    let (e, ts) ← expression fuel ts
    if kindAt ts == .comma then do
      let (rest, ts) ← arguments fuel (ts.drop 1)
      some (e :: rest, ts)
    else some ([e], ts)

end

def expressionThen (fuel : Nat) (kind : Kind) (ts : List Token) :
    Option (Expression × List Token) := do
  let (e, ts) ← expression fuel ts
  let ts ← expect kind ts
  some (e, ts)

def variableRest (fuel : Nat) (ts : List Token) :
    Option (String × Option Expression × List Token) := do
  let (name, ts) ← identifier ts
  if kindAt ts == .equal then do
    let (e, ts) ← expressionThen fuel .semicolon (ts.drop 1)
    some (name, some e, ts)
  else do
    let ts ← expect .semicolon ts
    some (name, none, ts)

def parameters : (fuel : Nat) → List Token → Option (List String × List Token)
  | 0, _ => none
  | fuel + 1, ts => do
    let (x, ts) ← identifier ts
    if kindAt ts == .comma then do
      let (rest, ts) ← parameters fuel (ts.drop 1)
      some (x :: rest, ts)
    else some ([x], ts)

def parameterList (fuel : Nat) (ts : List Token) : Option (List String × List Token) := do
  let ts ← expect .leftParen ts
  let (xs, ts) ← if kindAt ts == .rightParen then some ([], ts) else parameters fuel ts
  let ts ← expect .rightParen ts
  some (xs, ts)

def initializer (fuel : Nat) (ts : List Token) : Option (Initializer × List Token) :=
  if kindAt ts == .semicolon then some (.none, ts.drop 1)
  else if kindAt ts == .var then do
    let (name, value, ts) ← variableRest fuel (ts.drop 1)
    some (.var name value, ts)
  else do
    let (e, ts) ← expressionThen fuel .semicolon ts
    some (.expression e, ts)

def clause (fuel : Nat) (kind : Kind) (ts : List Token) :
    Option (Option Expression × List Token) :=
  if kindAt ts == kind then some (none, ts.drop 1)
  else do
    let (e, ts) ← expressionThen fuel kind ts
    some (some e, ts)

mutual

def declaration : (fuel count : Nat) → List Token → Option (Declaration × Nat × List Token)
  | 0, _, _ => none
  | fuel + 1, count, ts =>
    if kindAt ts == .fn then do
      let (f, count, ts) ← functionRest fuel count (ts.drop 1)
      some (.function f, count, ts)
    else if kindAt ts == .var then do
      let (name, value, ts) ← variableRest fuel (ts.drop 1)
      some (.var name value, count, ts)
    else do
      let (s, count, ts) ← statement fuel count ts
      some (.statement s, count, ts)

def functionRest : (fuel count : Nat) → List Token → Option (Function × Nat × List Token)
  | 0, _, _ => none
  | fuel + 1, count, ts => do
    let (name, ts) ← identifier ts
    functionTail fuel name count ts

def functionTail : (fuel : Nat) → (name : String) → (count : Nat) → List Token →
    Option (Function × Nat × List Token)
  | 0, _, _, _ => none
  | fuel + 1, name, count, ts => do
    let (parameters, ts) ← parameterList fuel ts
    if kindAt ts == .equal then do
      let (e, ts) ← expressionThen fuel .semicolon (ts.drop 1)
      some (⟨count, name, parameters, [], some e⟩, count + 1, ts)
    else do
      let ts ← expect .leftBrace ts
      let (body, next, ts) ← block fuel (count + 1) ts
      some (⟨count, name, parameters, body, none⟩, next, ts)

def block : (fuel count : Nat) → List Token → Option (List Declaration × Nat × List Token)
  | 0, _, _ => none
  | fuel + 1, count, ts =>
    if kindAt ts == .rightBrace then some ([], count, ts.drop 1)
    else if kindAt ts == .eof then none
    else do
      let (d, count, ts) ← declaration fuel count ts
      let (rest, count, ts) ← block fuel count ts
      some (d :: rest, count, ts)

def statement : (fuel count : Nat) → List Token → Option (Statement × Nat × List Token)
  | 0, _, _ => none
  | fuel + 1, count, ts =>
    match kindAt ts with
    | .print => do
      let (e, ts) ← expressionThen fuel .semicolon (ts.drop 1)
      some (.print e, count, ts)
    | .if => ifRest fuel count (ts.drop 1)
    | .while => whileRest fuel count (ts.drop 1)
    | .for => forRest fuel count (ts.drop 1)
    | .break => do
      let ts ← expect .semicolon (ts.drop 1)
      some (.break, count, ts)
    | .continue => do
      let ts ← expect .semicolon (ts.drop 1)
      some (.continue, count, ts)
    | .return => do
      let (value, ts) ← clause fuel .semicolon (ts.drop 1)
      some (.return value, count, ts)
    | .leftBrace => do
      let (body, count, ts) ← block fuel count (ts.drop 1)
      some (.block body, count, ts)
    | _ => do
      let (e, ts) ← expressionThen fuel .semicolon ts
      some (.expression e, count, ts)

/-- An `else` belongs to the nearest `if`, since it is taken as soon as it follows. -/
def ifRest : (fuel count : Nat) → List Token → Option (Statement × Nat × List Token)
  | 0, _, _ => none
  | fuel + 1, count, ts => do
    let (c, ts) ← expressionThen fuel .colon ts
    let (s, count, ts) ← statement fuel count ts
    if kindAt ts == .else then do
      let ts ← expect .colon (ts.drop 1)
      let (t, count, ts) ← statement fuel count ts
      some (.ifElse c s t, count, ts)
    else some (.ifElse c s .empty, count, ts)

def whileRest : (fuel count : Nat) → List Token → Option (Statement × Nat × List Token)
  | 0, _, _ => none
  | fuel + 1, count, ts => do
    let (c, ts) ← expressionThen fuel .colon ts
    let (s, count, ts) ← statement fuel count ts
    some (.while c s, count, ts)

def forRest : (fuel count : Nat) → List Token → Option (Statement × Nat × List Token)
  | 0, _, _ => none
  | fuel + 1, count, ts => do
    let (first, ts) ← initializer fuel ts
    let (condition, ts) ← clause fuel .semicolon ts
    let (step, ts) ← clause fuel .colon ts
    let (s, count, ts) ← statement fuel count ts
    some (.for first condition step s, count, ts)

end

def declarations : (fuel count : Nat) → List Token → Option (List Declaration)
  | 0, _, _ => none
  | fuel + 1, count, ts =>
    if kindAt ts == .eof then some []
    else do
      let (d, count, ts) ← declaration fuel count ts
      let rest ← declarations fuel count ts
      some (d :: rest)

def singleExpression (fuel : Nat) (ts : List Token) : Option Expression := do
  let (e, ts) ← expression fuel ts
  if kindAt ts == .eof then some e else none

end Reader

/-- The tree of a script has index zero, no name and no parameters. -/
def scriptOf (body : List Declaration) : Function := ⟨0, "", [], body, none⟩

/-- A single expression is a script without declarations and with a result. -/
def expressionOf (e : Expression) : Function := ⟨0, "", [], [], some e⟩

def scriptTree? (source : List UInt8) : Option Function :=
  (Reader.declarations (Compiler.fuelFor (scan source)) 1 (scan source)).map scriptOf

def expressionTree? (source : List UInt8) : Option Function :=
  (Reader.singleExpression (Compiler.fuelFor (scan source)) (scan source)).map expressionOf

end Reckoner.Script
