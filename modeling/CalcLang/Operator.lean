/-! The binary operators of the language. -/
namespace CalcLang

inductive Operator where
  | add
  | sub
  | mul
  | div
  | pow
  deriving DecidableEq, Repr

def Operator.symbol : Operator → Char
  | .add => '+'
  | .sub => '-'
  | .mul => '*'
  | .div => '/'
  | .pow => '^'

def Operator.ofSymbol? : Char → Option Operator
  | '+' => some .add
  | '-' => some .sub
  | '*' => some .mul
  | '/' => some .div
  | '^' => some .pow
  | _ => none

theorem Operator.symbolReadBack (op : Operator) : ofSymbol? op.symbol = some op := by
  cases op <;> rfl

end CalcLang
