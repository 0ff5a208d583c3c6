import CalcLang.Outcome

/-! Command-line options: flags for the dumps, a limit for the call depth, and at most one
path. They may come in any order; a later limit replaces an earlier one. -/
namespace CalcLang

inductive DepthError where
  | empty
  | invalidDigit
  | tooLarge
  deriving DecidableEq, Repr

def DepthError.message : DepthError → String
  | empty => "cannot parse integer from empty string"
  | invalidDigit => "invalid digit found in string"
  | tooLarge => "number too large to fit in target type"

def depthBound : Nat := UInt64.size

def readDepthDigits (n : Nat) : List Char → Except DepthError Nat
  | [] => .ok n
  | c :: rest =>
    if !c.isDigit then .error .invalidDigit
    else
      let m := 10 * n + (c.toNat - '0'.toNat)
      if m < depthBound then readDepthDigits m rest else .error .tooLarge

def readDepth (text : String) : Except DepthError Nat :=
  match text.toList with
  | [] => .error .empty
  | ['+'] => .error .invalidDigit
  | '+' :: digits => readDepthDigits 0 digits
  | digits => readDepthDigits 0 digits

inductive OptionError where
  | missingValue (option : String)
  | invalidDepth (text : String) (cause : DepthError)
  | unknown (option : String)
  | secondPath
  deriving DecidableEq, Repr

structure Options where
  showTokens : Bool
  showTree : Bool
  showCode : Bool
  callDepth : Nat
  path : Option String
  deriving DecidableEq, Repr

namespace Options

def default : Options := ⟨false, false, false, defaultCallDepth, none⟩

def isOption (arg : String) : Bool :=
  match arg.toList with
  | '-' :: '-' :: _ => true
  | _ => false

def addPath (o : Options) (path : String) : Except OptionError Options :=
  match o.path with
  | some _ => .error .secondPath
  | none => .ok { o with path := some path }

def extend (o : Options) : List String → Except OptionError Options
  | [] => .ok o
  | "--tokens" :: rest => extend { o with showTokens := true } rest
  | "--ast" :: rest => extend { o with showTree := true } rest
  | "--bytecode" :: rest => extend { o with showCode := true } rest
  | ["--max-call-depth"] => .error (.missingValue "--max-call-depth")
  | "--max-call-depth" :: value :: rest =>
    match readDepth value with
    | .ok depth => extend { o with callDepth := depth } rest
    | .error cause => .error (.invalidDepth value cause)
  | arg :: rest =>
    if isOption arg then .error (.unknown arg)
    else
      match o.addPath arg with
      | .ok o => extend o rest
      | .error e => .error e

def parse (args : List String) : Except OptionError Options := default.extend args

end Options
end CalcLang
