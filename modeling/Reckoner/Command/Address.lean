/-!
Addresses to listen on: a host and a service with a colon between them. A host that has colons
itself stands in brackets, and a service is a number.
-/

namespace Reckoner.Command

inductive AddressError where
  | malformed (address complaint : String)
  | unknownService (name : String)
  deriving Repr, DecidableEq, Inhabited

def AddressError.message : AddressError → String
  | .malformed address complaint => "listen tcp: address " ++ address ++ ": " ++ complaint
  | .unknownService name => "listen tcp: lookup tcp/" ++ name ++ ": unknown port"

def missingService : String := "missing port in address"

def tooManyColons : String := "too many colons in address"

def strayBracket (afterOpening afterClosing : List Char) : Option String :=
  if afterOpening.contains '[' then some "unexpected '[' in address"
  else if afterClosing.contains ']' then some "unexpected ']' in address"
  else none

def shapeFault (cs : List Char) : Option String :=
  match cs with
  | '[' :: inner =>
    if !inner.contains ']' then some "missing ']' in address"
    else
      let host := inner.takeWhile (· != ']')
      let rest := (inner.drop host.length).tail
      match rest with
      | ':' :: service =>
        if service.contains ':' then some tooManyColons else strayBracket inner rest
      | _ => some missingService
  | _ => if 1 < cs.count ':' then some tooManyColons else strayBracket cs cs

def serviceOf (cs : List Char) : List Char := (cs.reverse.takeWhile (· != ':')).reverse

def greatestService : Nat := 65535

def serviceFault (service : List Char) : Option AddressError :=
  let digits :=
    match service with
    | '-' :: rest | '+' :: rest => rest
    | _ => service
  if !digits.all Char.isDigit then some (.unknownService (String.ofList service))
  else
    let n := digits.foldl (fun n c => min (10 * n + (c.toNat - '0'.toNat)) (greatestService + 1)) 0
    if greatestService < n || (service.head? == some '-' && 0 < n) then
      some (.malformed (String.ofList service) "invalid port")
    else none

/-- What is wrong with an address, if anything is. The empty address is every one. -/
def addressFault (address : String) : Option AddressError :=
  let cs := address.toList
  if cs.isEmpty then none
  else if !cs.contains ':' then some (.malformed address missingService)
  else
    match shapeFault cs with
    | some complaint => some (.malformed address complaint)
    | none => serviceFault (serviceOf cs)

end Reckoner.Command
