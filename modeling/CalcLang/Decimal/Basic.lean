/-! Decimals with finitely many places, held exactly: `coeff` units of `10 ^ -scale`.
Nothing here rounds. A written decimal has at least one digit on each side of its
point, so it can be read back digit by digit. -/
namespace CalcLang

def tenPower (n : Nat) : Nat := Nat.pow 10 n

structure Decimal where
  coeff : Nat
  scale : Nat
  deriving DecidableEq, Repr

namespace Decimal

def ofDigits (whole fraction : List Char) : Decimal :=
  ⟨Nat.ofDigitChars 10 (whole ++ fraction) 0, fraction.length⟩

def dropZeros (coeff : Nat) : Nat → Decimal
  | 0 => ⟨coeff, 0⟩
  | scale + 1 =>
    if coeff % 10 = 0 then dropZeros (coeff / 10) scale else ⟨coeff, scale + 1⟩

def reduced (d : Decimal) : Decimal := dropZeros d.coeff d.scale

def wholeDigits (d : Decimal) : List Char :=
  Nat.toDigits 10 (d.coeff / tenPower d.scale)

def fractionDigits (d : Decimal) : List Char :=
  -- a whole number gets a single zero
  (Nat.toDigits 10 (d.coeff % tenPower d.scale)).leftpad d.scale '0'

def positional (d : Decimal) : String :=
  String.ofList (d.wholeDigits ++ '.' :: d.fractionDigits)

def significantDigits (d : Decimal) : List Char :=
  ((Nat.toDigits 10 d.coeff).reverse.dropWhile (· = '0')).reverse

def exponent (d : Decimal) : Int :=
  ((Nat.toDigits 10 d.coeff).length : Int) - 1 - d.scale

def scientific (d : Decimal) : String :=
  let mantissa :=
    match d.significantDigits with
    | first :: second :: rest => first :: '.' :: second :: rest
    | digits => digits
  String.ofList mantissa ++ "e" ++ toString d.exponent

def reaches (d : Decimal) (places : Nat) : Bool := tenPower d.scale ≤ d.coeff * tenPower places

def below (d : Decimal) (power : Nat) : Bool := d.coeff < tenPower power * tenPower d.scale

end Decimal
end CalcLang
