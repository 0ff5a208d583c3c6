import CalcLang.Decimal.Binary64
import CalcLang.Operator

/-! Numbers of the language: 64-bit integers and binary64 floats. Sums, differences and
products of two integers are exact or refused; every other operation is done on floats, and
of the words that are not a number it gives the one without sign and payload. Values are
equal if their kinds and all their bits are; `Value.agrees` is the language's own comparison,
which takes the two zeros of a float for one and no not-a-number for itself. -/
namespace CalcLang

inductive Value where
  | int (n : Int64)
  | float (x : Binary64)
  deriving DecidableEq

inductive Overflow where
  | addition
  | subtraction
  | multiplication
  deriving DecidableEq, Repr

def Overflow.operation : Overflow → String
  | .addition => "addition"
  | .subtraction => "subtraction"
  | .multiplication => "multiplication"

def Overflow.message (o : Overflow) : String := "Integer overflow in " ++ o.operation

namespace Value

def InRange (n : Int) : Prop := Int64.minValue.toInt ≤ n ∧ n ≤ Int64.maxValue.toInt

instance (n : Int) : Decidable (InRange n) := inferInstanceAs (Decidable (_ ∧ _))

def ofExact (operation : Overflow) (n : Int) : Except Overflow Value :=
  if InRange n then .ok (.int (Int64.ofInt n)) else .error operation

-- an integer goes to the nearest float, a tie to the even one
def widen : Value → Binary64
  | .int n => .ofFloat (Float.ofInt n.toInt)
  | .float x => x

def onFloats (f : Float → Float → Float) (a b : Value) : Value :=
  .float (.ofFloat (f a.widen.toFloat b.widen.toFloat))

def add : Value → Value → Except Overflow Value
  | .int a, .int b => ofExact .addition (a.toInt + b.toInt)
  | a, b => .ok (onFloats (· + ·) a b)

def sub : Value → Value → Except Overflow Value
  | .int a, .int b => ofExact .subtraction (a.toInt - b.toInt)
  | a, b => .ok (onFloats (· - ·) a b)

def mul : Value → Value → Except Overflow Value
  | .int a, .int b => ofExact .multiplication (a.toInt * b.toInt)
  | a, b => .ok (onFloats (· * ·) a b)

def div : Value → Value → Value := onFloats (· / ·)

def pow : Value → Value → Value := onFloats Float.pow

def apply : Operator → Value → Value → Except Overflow Value
  | .add, a, b => a.add b
  | .sub, a, b => a.sub b
  | .mul, a, b => a.mul b
  | .div, a, b => .ok (a.div b)
  | .pow, a, b => .ok (a.pow b)

def agrees : Value → Value → Bool
  | .int a, .int b => a == b
  | .float x, .float y => x.agrees y
  | _, _ => false

end Value
end CalcLang
