import CalcLang.Bindings
import CalcLang.Value.Basic

/-! How a run ends: with a value, if there is one, or with an error, and in both cases with
the globals as they then are. -/
namespace CalcLang

inductive RunError where
  | stackUnderflow
  | undefinedVariable (name : String)
  | undefinedLocal (name : String)
  | undefinedFunction (name : String)
  | arityMismatch (name : String) (expected found : Nat)
  | missingReturnValue (name : String)
  | invalidConstant (index : Nat)
  | recursionLimit (limit : Nat)
  | overflow (operation : Overflow)
  deriving DecidableEq, Repr

def RunError.message : RunError → String
  | stackUnderflow => "Stack underflow"
  | undefinedVariable name => "Undefined variable '" ++ name ++ "'"
  | undefinedLocal name => "Undefined local '" ++ name ++ "'"
  | undefinedFunction name => "Call to undefined function '" ++ name ++ "'"
  | arityMismatch name expected found =>
    "Function '" ++ name ++ "' expected " ++ toString expected ++ " arguments, got " ++ toString found
  | missingReturnValue name => "Function '" ++ name ++ "' returned no value"
  | invalidConstant index => "Constant index " ++ toString index ++ " out of range"
  | recursionLimit limit => "Maximum call depth of " ++ toString limit ++ " exceeded"
  | overflow operation => operation.message

abbrev Globals := Bindings Value

structure Outcome where
  result : Except RunError (Option Value)
  globals : Globals

def defaultCallDepth : Nat := 1000

end CalcLang
