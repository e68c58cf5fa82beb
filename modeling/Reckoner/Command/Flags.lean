import Reckoner.Command.Number
import Reckoner.Text.Columns

/-!
Flags of a command. They come before the operands, with one dash or two; their values follow after
an equals sign or as the next argument.
-/

namespace Reckoner.Command

inductive FlagValue where
  | text (s : String)
  | integer (n : Int)
  | real (b : Binary)
  | toggle (b : Bool)
  deriving Repr, DecidableEq, Inhabited

structure Flag where
  name : String
  value : FlagValue
  help : String
  deriving Repr, DecidableEq, Inhabited

inductive FlagError where
  | helpWanted
  | malformed (arg : String)
  | unknown (name : String)
  | valueMissing (name : String)
  | badValue (value name : String) (fault : IntegerFault)
  | badToggle (value name : String)
  deriving Repr, DecidableEq, Inhabited

def faultText : IntegerFault → String
  | .syntaxFault => "parse error"
  | .outOfRange => "value out of range"

def FlagError.message? : FlagError → Option String
  | .helpWanted => none
  | .malformed arg => some ("bad flag syntax: " ++ arg)
  | .unknown name => some ("flag provided but not defined: -" ++ name)
  | .valueMissing name => some ("flag needs an argument: -" ++ name)
  | .badValue value name fault =>
    some ("invalid value " ++ Text.quote value ++ " for flag -" ++ name ++ ": " ++ faultText fault)
  | .badToggle value name =>
    some ("invalid boolean value " ++ Text.quote value ++ " for -" ++ name ++ ": "
      ++ faultText .syntaxFault)

namespace FlagValue

def kindName : FlagValue → String
  | .text _ => "string"
  | .integer _ => "int"
  | .real _ => "float"
  | .toggle _ => ""

def remark : FlagValue → String
  | .text s => if s.isEmpty then "" else " (default " ++ Text.quote s ++ ")"
  | .integer n => if n = 0 then "" else " (default " ++ Text.integer n ++ ")"
  | .real b => if b.isZero then "" else " (default " ++ (Decimal.ofBinary b).display ++ ")"
  | .toggle b => if b then " (default true)" else ""

def readLike (old : FlagValue) (name value : String) : Except FlagError FlagValue :=
  match old with
  | .text _ => .ok (.text value)
  | .integer _ => ((readInteger value).map FlagValue.integer).mapError (.badValue value name)
  | .real _ => ((readReal value).map FlagValue.real).mapError (.badValue value name)
  | .toggle _ => ((readBoolean value).map FlagValue.toggle).mapError fun _ => .badToggle value name

def isToggle : FlagValue → Bool
  | .toggle _ => true
  | _ => false

end FlagValue

inductive Argument where
  | operand
  | terminator
  | malformed
  | flag (name : String) (value : Option String)
  deriving Repr, DecidableEq, Inhabited

/-- The name and the value in an argument without its dashes. The first character is part of the
name. -/
def splitFlag : List Char → Argument
  | [] => .malformed
  | c :: rest =>
    if c == '-' || c == '=' then .malformed
    else
      let name := rest.takeWhile (· != '=')
      .flag (String.ofList (c :: name))
        (match rest.drop name.length with
        | [] => none
        | _ :: value => some (String.ofList value))

def classify (arg : String) : Argument :=
  match arg.toList with
  | ['-', '-'] => .terminator
  | '-' :: '-' :: rest => splitFlag rest
  | '-' :: c :: rest => splitFlag (c :: rest)
  | _ => .operand

def setFlag (flags : List Flag) (name : String) (value : FlagValue) : List Flag :=
  flags.map fun f => if f.name == name then { f with value } else f

def readFlags (flags : List Flag) : List String → Except FlagError (List Flag × List String)
  | [] => .ok (flags, [])
  | arg :: rest =>
    match classify arg with
    | .operand => .ok (flags, arg :: rest)
    | .terminator => .ok (flags, rest)
    | .malformed => .error (.malformed arg)
    | .flag name value =>
      match flags.find? fun f => f.name == name with
      | none => .error (if name == "help" || name == "h" then .helpWanted else .unknown name)
      | some flag =>
        if flag.value.isToggle then do
          let value ← flag.value.readLike name (value.getD "true")
          readFlags (setFlag flags name value) rest
        else
          match value, rest with
          | some value, rest => do
            readFlags (setFlag flags name (← flag.value.readLike name value)) rest
          | none, value :: rest => do
            readFlags (setFlag flags name (← flag.value.readLike name value)) rest
          | none, [] => .error (.valueMissing name)

def Flag.usage (f : Flag) : String :=
  let kind := f.value.kindName
  let head := "  -" ++ f.name ++ (if kind.isEmpty then "" else " " ++ kind)
  head ++ (if head.utf8ByteSize ≤ 4 then "\t" else "\n    \t") ++ f.help ++ f.value.remark ++ "\n"

def flagUsage (flags : List Flag) : String :=
  String.join ((flags.mergeSort fun a b => a.name ≤ b.name).map Flag.usage)

def textFlag (flags : List Flag) (name : String) : String :=
  match (flags.find? fun f => f.name == name).map Flag.value with
  | some (.text s) => s
  | _ => ""

def integerFlag (flags : List Flag) (name : String) : Int :=
  match (flags.find? fun f => f.name == name).map Flag.value with
  | some (.integer n) => n
  | _ => 0

def realFlag (flags : List Flag) (name : String) : Binary :=
  match (flags.find? fun f => f.name == name).map Flag.value with
  | some (.real b) => b
  | _ => Binary.ofInt 0

def toggleFlag (flags : List Flag) (name : String) : Bool :=
  (flags.find? fun f => f.name == name).map Flag.value == some (.toggle true)

end Reckoner.Command
