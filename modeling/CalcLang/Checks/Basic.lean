import CalcLang.Bindings
import CalcLang.Tree.Basic

/-! Checks on a program before it is compiled. All function signatures are collected first,
so a function may be called above its definition; then statements are checked from top to
bottom, and a variable is known below its first assignment. The first fault found is
reported. -/
namespace CalcLang

inductive CheckError where
  | duplicateFunction (name : String)
  | duplicateParameter (function name : String)
  | undefinedVariable (name : String)
  | undefinedFunction (name : String)
  | arityMismatch (name : String) (expected found : Nat)
  | unsupportedCallee
  deriving DecidableEq, Repr

def CheckError.message : CheckError → String
  | duplicateFunction name => "Function '" ++ name ++ "' already defined"
  | duplicateParameter function name =>
    "Function '" ++ function ++ "' declares parameter '" ++ name ++ "' more than once"
  | undefinedVariable name => "Undefined variable '" ++ name ++ "'"
  | undefinedFunction name => "Call to undefined function '" ++ name ++ "'"
  | arityMismatch name expected found =>
    "Function '" ++ name ++ "' expected " ++ toString expected ++ " arguments, got " ++ toString found
  | unsupportedCallee => "Unsupported call expression: only named functions can be called"

abbrev Signatures := Bindings Nat

def Signatures.collect (known : Signatures) : List Statement → Except CheckError Signatures
  | [] => .ok known
  | .define name params _ :: rest =>
    if known.contains name then .error (.duplicateFunction name)
    else collect (known.insert name params.length) rest
  | _ :: rest => collect known rest

namespace Expr

mutual

def check (signatures : Signatures) (scope : List String) : Expr → Except CheckError Unit
  | number _ => .ok ()
  | var name => if name ∈ scope then .ok () else .error (.undefinedVariable name)
  | binary _ left right => do
    left.check signatures scope
    right.check signatures scope
  | call (var name) args =>
    match signatures.get? name with
    | none => .error (.undefinedFunction name)
    | some expected =>
      if args.length = expected then checkAll signatures scope args
      else .error (.arityMismatch name expected args.length)
  | call _ _ => .error .unsupportedCallee

def checkAll (signatures : Signatures) (scope : List String) : List Expr → Except CheckError Unit
  | [] => .ok ()
  | e :: rest => do
    e.check signatures scope
    checkAll signatures scope rest

end

end Expr

def repeated? (seen : List String) : List String → Option String
  | [] => none
  | p :: rest => if p ∈ seen then some p else repeated? (p :: seen) rest

def checkStatements (signatures : Signatures) (globals : List String) :
    List Statement → Except CheckError Unit
  | [] => .ok ()
  | .define name params body :: rest =>
    match repeated? [] params with
    | some p => .error (.duplicateParameter name p)
    | none => do
      body.check signatures (params ++ globals)
      checkStatements signatures globals rest
  | .assign name value :: rest => do
    value.check signatures globals
    checkStatements signatures (name :: globals) rest
  | .eval expr :: rest => do
    expr.check signatures globals
    checkStatements signatures globals rest

def Program.check (p : Program) : Except CheckError Unit := do
  let signatures ← Signatures.collect .empty p.statements
  checkStatements signatures [] p.statements

end CalcLang
