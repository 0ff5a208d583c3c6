import CalcLang.Decimal.Binary64

/-! The shortest decimal of a binary64 magnitude: the fewest significant digits that are
read back as the same magnitude, and of two such decimals with that many digits the one
nearer to the exact value, the upper one when both are equally near. -/
namespace CalcLang.Binary64

def neighbour? (reads : Decimal → Bool) (nearer : Bool) (lower upper : Decimal) : Option Decimal :=
  match reads lower, reads upper with
  | true, true => if nearer then some lower else some upper
  | true, false => some lower
  | false, true => some upper
  | false, false => none

def rounded? (word : Nat) (value : Decimal) (length count : Nat) : Option Decimal :=
  -- decimals with `count` digits are multiples of `step`; only the two around the value need a look
  let step := tenPower (length - count)
  let lower : Decimal := ⟨value.coeff / step * step, value.scale⟩
  let upper : Decimal := ⟨lower.coeff + step, value.scale⟩
  neighbour? (fun d => ofDecimal d == word) (2 * (value.coeff - lower.coeff) < step) lower upper

def digitLimit : Nat := 17

def shortest (word : Nat) : Decimal :=
  let value := exact word
  let length := (Nat.toDigits 10 value.coeff).length
  -- seventeen digits tell any two magnitudes apart
  ((List.range digitLimit).findSome? fun n => rounded? word value length (n + 1)).getD value

end CalcLang.Binary64
