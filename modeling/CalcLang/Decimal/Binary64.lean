import CalcLang.Decimal.Basic

/-! Binary64 numbers as words of 64 bits. The bits below the sign are the magnitude, a natural number:
infinity follows the last finite one, and what lies above it is not a number. A finite magnitude is a
whole number of units of `2 ^ -1074`, and only `nearest` rounds. -/
namespace CalcLang

structure Binary64 where
  bits : UInt64
  deriving DecidableEq, Repr

namespace Binary64

def infinity : Nat := 0x7ff0000000000000

def binade : Nat := 0x10000000000000

def signBit : Nat := 0x8000000000000000

def unitPlaces : Nat := 1074

def roundDiv (num den : Nat) : Nat :=
  let quotient := num / den
  let remainder := num % den
  -- a half goes to the even neighbour
  if 2 * remainder < den ∨ 2 * remainder = den ∧ quotient % 2 = 0 then quotient
  else quotient + 1

def nearest (num den : Nat) : Nat :=
  let units := num * Nat.pow 2 unitPlaces
  -- 53 bits are significant: this many bits above the unit stands the last place
  let shift := (units / den).log2 - 52
  -- a carry out of the significand moves on to the next exponent by itself
  min (shift * binade + roundDiv units (den * Nat.pow 2 shift)) infinity

def significand (word : Nat) : Nat :=
  -- magnitudes below the first binade have no hidden bit
  if word < binade then word else binade + word % binade

def shift (word : Nat) : Nat := word / binade - 1

def exact (word : Nat) : Decimal :=
  -- the magnitude is `significand` times `2 ^ shift` units
  let places := unitPlaces - shift word
  ⟨significand word * Nat.pow 2 (shift word - unitPlaces) * Nat.pow 5 places, places⟩

def ofDecimal (d : Decimal) : Nat := nearest d.coeff (tenPower d.scale)

def magnitude (x : Binary64) : Nat := x.bits.toNat % signBit

def negative (x : Binary64) : Bool := signBit ≤ x.bits.toNat

def ofMagnitude (word : Nat) : Binary64 := ⟨UInt64.ofNat word⟩

def isNaN (x : Binary64) : Bool := infinity < x.magnitude

/-- Equality of numbers: the two zeros are one number, and what is not a number equals nothing. -/
def agrees (x y : Binary64) : Bool :=
  !x.isNaN && !y.isNaN && (x = y || x.magnitude = 0 && y.magnitude = 0)

def toFloat (x : Binary64) : Float := Float.ofBits x.bits

def ofFloat (x : Float) : Binary64 := ⟨x.toBits⟩

instance : OfScientific Binary64 :=
  ⟨fun digits negated places => .ofFloat (.ofScientific digits negated places)⟩

instance : Neg Binary64 := ⟨fun x => ⟨x.bits + UInt64.ofNat signBit⟩⟩

end Binary64
end CalcLang
