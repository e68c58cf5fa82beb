import Reckoner.Compiler.Diagnostic
import Reckoner.Exchange.Arguments
import Reckoner.Exchange.Target
import Reckoner.Machine.Host

/-!
Functions that a host program offers to scripts. One either works on values and may ask its engine
for something, or it is a typed function whose arguments and result are converted.
-/

namespace Reckoner

inductive Request where
  | interpret (source : String)
  | evaluate (source : String)
  | call (name : String) (args : List Value)
  | duplicate
  | listing

inductive EngineError where
  | missing
  | busy
  | cancelled
  | diagnostics (ds : List Diagnostic)
  | fault (f : Fault)
  | listing (message : String)
  | exhausted

def Fault.summary (f : Fault) : String :=
  if f.frame.routine.isEmpty then f.message
  else "line " ++ Text.integer f.frame.line ++ " in " ++ f.frame.routine ++ ": " ++ f.message

def EngineError.message : EngineError → String
  | .missing => "nil VM"
  | .busy => "VM is busy; concurrent evaluation not allowed"
  | .cancelled => "context canceled"
  | .diagnostics ds => Diagnostic.report ds
  | .fault f => f.summary
  | .listing message => message
  | .exhausted => "out of steps"

/-- The behaviour of a host function. What it asks its engine for is granted or refused. -/
inductive Conduct where
  | answer (v : Value)
  | fail (e : HostError)
  | ask (r : Request) (next : Except EngineError Unit → Conduct)

/-- The conduct as the machine sees it. Every request gets the same reply, for the engine is in one
and the same operation as long as the function runs. -/
def Conduct.toAction (reply : Except EngineError Unit) : Conduct → Action
  | .answer v => .answer v
  | .fail e => .fail e
  | .ask _ next => (next reply).toAction reply

structure HostFunction where
  arity : Int
  handler : Option (Arguments → Conduct)

inductive ResultType where
  | value
  | error
  deriving Repr, DecidableEq, Inhabited

structure Signature where
  parameters : List Target
  variadic : Bool
  results : List ResultType
  deriving Repr, DecidableEq, Inhabited

inductive Offer where
  | missing
  | other (typeName : String)
  | function (signature : Signature) (body : List Datum → Except String Datum)

inductive OfferError where
  | missing
  | notFunction (typeName : String)
  | variadic
  | noValue
  | secondNotError
  | resultCount (n : Nat)
  deriving Repr, DecidableEq, Inhabited

def OfferError.message : OfferError → String
  | .missing => "nil function"
  | .notFunction typeName => typeName ++ " is not a function"
  | .variadic => "variadic functions are not supported"
  | .noValue => "function must return a value"
  | .secondNotError => "second return value must be error"
  | .resultCount n => "function must return 1 or 2 values, got " ++ Text.natural n

def Signature.check (s : Signature) : Except OfferError Unit :=
  if s.variadic then .error .variadic
  else
    match s.results with
    | [.value] | [_, .error] => .ok ()
    | [.error] => .error .noValue
    | [_, .value] => .error .secondNotError
    | results => .error (.resultCount results.length)

def Arguments.convert (a : Arguments) : (index : Nat) → List Target → Except HostError (List Datum)
  | _, [] => .ok []
  | index, target :: rest =>
    match a.value index with
    | .error e => .error e
    | .ok v =>
      match v.convert target with
      | .error e => .error (.plain ("argument " ++ Text.natural index ++ ": " ++ e.message))
      | .ok d =>
        match a.convert (index + 1) rest with
        | .ok ds => .ok (d :: ds)
        | .error e => .error e

def Signature.conduct (s : Signature) (body : List Datum → Except String Datum) (a : Arguments) :
    Conduct :=
  match a.convert 0 s.parameters with
  | .error e => .fail e
  | .ok ds =>
    match body ds with
    | .error message => .fail (.plain message)
    | .ok d =>
      match d.toValue with
      | .ok v => .answer v
      | .error e => .fail (.plain e.message)

def Offer.toFunction : Offer → Except OfferError HostFunction
  | .missing => .error .missing
  | .other typeName => .error (.notFunction typeName)
  | .function s body =>
    match s.check with
    | .error e => .error e
    | .ok _ => .ok { arity := s.parameters.length, handler := some (s.conduct body) }

end Reckoner
