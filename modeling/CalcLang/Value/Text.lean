import CalcLang.Decimal.Shortest
import CalcLang.Value.Basic

/-! The two texts of a value. `text` is what programs and listings show: it never uses an
exponent and is exact for whole floats. `inspect` also names the kind and is used in
execution logs; very large and very small floats appear there in scientific form. -/
namespace CalcLang.Value

def signText (x : Binary64) : String := if x.negative then "-" else ""

def shownDecimal (word : Nat) : Decimal :=
  let value := (Binary64.exact word).reduced
  if value.scale = 0 then value else (Binary64.shortest word).reduced

def floatText (x : Binary64) : String :=
  let word := x.magnitude
  if Binary64.infinity < word then "nan"
  else if word = Binary64.infinity then signText x ++ "inf"
  else signText x ++ (shownDecimal word).positional

def text : Value → String
  | .int n => toString n.toInt
  | .float x => floatText x

def isModerate (d : Decimal) : Bool := d.coeff == 0 || d.reaches 4 && d.below 16

def inspectFloat (x : Binary64) : String :=
  let word := x.magnitude
  if Binary64.infinity < word then "NaN"
  else if word = Binary64.infinity then signText x ++ "inf"
  else
    let shown := (Binary64.shortest word).reduced
    signText x ++ if isModerate shown then shown.positional else shown.scientific

def inspect : Value → String
  | .int n => "Integer(" ++ toString n.toInt ++ ")"
  | .float x => "Float(" ++ inspectFloat x ++ ")"

end CalcLang.Value
