import CalcLang.Proofs.Decimals
import CalcLang.Proofs.Spans

/-! The texts of values as tokens. The text of a value is a sign and a body, and the body is read as
the value without its sign: an integer as an integer, since its body has no point, and a float as a
float with the same bits, since the digits that are shown are those that are read back. -/
namespace CalcLang

namespace Binary64

variable {x : Binary64}

theorem ofMagnitudePlus (plus : x.negative = false) : ofMagnitude x.magnitude = x := by
  have below : x.bits.toNat < signBit := by simpa [negative] using plus
  rw [magnitude, Nat.mod_eq_of_lt below, ofMagnitude, UInt64.ofNat_toNat]

theorem ofMagnitudeMinus (minus : x.negative = true) : ofMagnitude x.magnitude = -x := by
  have above : signBit ≤ x.bits.toNat := of_decide_eq_true minus
  have word := x.bits.toNat_lt
  have bits : (UInt64.ofNat x.magnitude).toNat = (x.bits + UInt64.ofNat signBit).toNat := by
    rw [UInt64.toNat_add, UInt64.toNat_ofNat', UInt64.toNat_ofNat', magnitude]
    unfold signBit at above ⊢
    omega
  exact congrArg mk (UInt64.toNat_inj.mp bits)

end Binary64

namespace Value

def IsFinite : Value → Prop
  | int _ => True
  | float x => x.magnitude < Binary64.infinity

def IsNaN : Value → Prop
  | int _ => False
  | float x => x.isNaN = true

def isNegative : Value → Bool
  | int n => n < 0
  | float x => x.negative

def negated : Value → Value
  | int n => int (-n)
  | float x => float (-x)

def sign (v : Value) : List Char := if v.isNegative then ['-'] else []

def body : Value → List Char
  | int n => Nat.toDigits 10 n.toInt.natAbs
  | float x =>
    if x.magnitude = Binary64.infinity then "inf".toList
    else (shownDecimal x.magnitude).positional.toList

theorem signFloat (x : Binary64) : (signText x).toList = (float x).sign := by
  unfold signText sign isNegative
  split <;> rfl

theorem integerText (z : Int) :
    (toString z).toList = (if z < 0 then ['-'] else []) ++ Nat.toDigits 10 z.natAbs := by
  rw [Int.toString_eq_repr]
  cases z with
  | ofNat n =>
    have positive : ¬ Int.ofNat n < 0 := Int.not_lt.mpr (Int.natCast_nonneg n)
    rw [if_neg positive]
    exact Nat.toList_repr
  | negSucc n =>
    rw [if_pos (Int.negSucc_lt_zero n)]
    exact (String.toList_append).trans (congrArg (List.cons '-') Nat.toList_repr)

theorem textParts {v : Value} (number : ¬ v.IsNaN) : v.text.toList = v.sign ++ v.body := by
  cases v with
  | int n =>
    have below : n < 0 ↔ n.toInt < 0 := Int64.lt_iff_toInt_lt
    rw [text, integerText, sign, isNegative]
    simp only [below, decide_eq_true_eq]
    rfl
  | float x =>
    have small : ¬ Binary64.infinity < x.magnitude := fun above => number (decide_eq_true above)
    rw [text, floatText, if_neg small, body]
    split
    · rw [String.toList_append, signFloat]
    · rw [String.toList_append, signFloat]

def unsigned (v : Value) : Value := if v.isNegative then v.negated else v

theorem finiteNumber {v : Value} (finite : v.IsFinite) : ¬ v.IsNaN := by
  cases v with
  | int n => exact id
  | float x =>
    intro number
    have above : Binary64.infinity < x.magnitude := of_decide_eq_true number
    exact Nat.lt_asymm above finite

theorem unsignedInteger {n : Int64} (other : int n ≠ int Int64.minValue) :
    ∃ m, (int n).unsigned = int m ∧ m.toInt = n.toInt.natAbs := by
  unfold unsigned
  split
  · rename_i below
    have negative : n.toInt < 0 := Int64.lt_iff_toInt_lt.mp (of_decide_eq_true below)
    have low := n.le_toInt
    have least : n.toInt ≠ -2 ^ 63 := fun same =>
      other (congrArg int (Int64.toInt_inj.mp (same.trans Int64.toInt_minValue.symm)))
    refine ⟨-n, rfl, ?_⟩
    rw [Int64.toInt_neg, Int.bmod_eq_of_le (by omega) (by omega)]
    omega
  · rename_i above
    have positive : ¬ n.toInt < 0 := fun negative =>
      above (decide_eq_true (Int64.lt_iff_toInt_lt.mpr negative))
    exact ⟨n, rfl, by omega⟩

theorem unsignedFloat (x : Binary64) : (float x).unsigned = float (.ofMagnitude x.magnitude) := by
  unfold unsigned
  split
  · rename_i minus
    rw [Binary64.ofMagnitudeMinus minus]
    rfl
  · rename_i plus
    rw [Binary64.ofMagnitudePlus (Bool.eq_false_of_not_eq_true plus)]

theorem digitsOfNumber (n : Nat) : digitsValue (Nat.toDigits 10 n) = n := by
  rw [← Cursor.ofDigitCharsValue, Nat.ofDigitChars_ten_toDigits]

theorem shownReads {word : Nat} (finite : word < Binary64.infinity) :
    Binary64.ofDecimal (shownDecimal word) = word := by
  unfold shownDecimal
  dsimp only
  split
  · rw [Decimal.reducedReads, Binary64.ofDecimalExact finite]
  · rw [Decimal.reducedReads, Binary64.ofDecimalShortest finite]

theorem bodyFloat {x : Binary64} (finite : x.magnitude < Binary64.infinity) : (float x).body =
    (shownDecimal x.magnitude).wholeDigits ++ '.' :: (shownDecimal x.magnitude).fractionDigits := by
  rw [body, if_neg (Nat.ne_of_lt finite)]
  exact String.toList_ofList

theorem bodyLexeme {v : Value} (finite : v.IsFinite) (other : v ≠ int Int64.minValue) :
    Lexeme v.body [] (.number v.unsigned) := by
  have alone : NoFraction [] := by simp [NoFraction]
  cases v with
  | int n =>
    obtain ⟨m, same, value⟩ := unsignedInteger other
    rw [same]
    refine .integer (Decimal.toDigitsDigits _) ?_ (stopsNil Digit) alone
    rw [value, body, digitsOfNumber]
  | float x =>
    have read : Lexeme _ [] _ := .float (shownDecimal x.magnitude).wholeIsDigits
      (shownDecimal x.magnitude).fractionIsDigits (stopsNil Digit)
    rw [Decimal.positionalReads, shownReads finite] at read
    rwa [bodyFloat finite, unsignedFloat]

end Value

theorem Lexeme.scan {text : List Char} {kind : TokenKind} (lexeme : Lexeme text [] kind) (offset : Nat) :
    Scan offset text [⟨kind, ⟨offset, offset + text.length⟩⟩,
      ⟨.endOfInput, ⟨offset + text.length, offset + text.length⟩⟩] := by
  have scan : Scan offset ([] ++ (text ++ [])) _ :=
    .next (List.forall_mem_nil _) lexeme (.last (List.forall_mem_nil _))
  simpa using scan

theorem minusScan {text : List Char} {tokens : List Token} (scan : Scan 1 text tokens) :
    Scan 0 ('-' :: text) (⟨.operator .sub, ⟨0, 1⟩⟩ :: tokens) := by
  have minus : Lexeme ['-'] text (.operator .sub) := .symbol (by simp [symbols])
  exact .next (List.forall_mem_nil _) minus scan

theorem textReadsBack (v : Value) (finite : v.IsFinite) :
    (v.isNegative = false → tokenize v.text = .ok [⟨.number v, ⟨0, v.text.utf8ByteSize⟩⟩,
      ⟨.endOfInput, ⟨v.text.utf8ByteSize, v.text.utf8ByteSize⟩⟩]) ∧
    (v.isNegative = true → v ≠ .int Int64.minValue →
      tokenize v.text = .ok [⟨.operator .sub, ⟨0, 1⟩⟩, ⟨.number v.negated, ⟨1, v.text.utf8ByteSize⟩⟩,
        ⟨.endOfInput, ⟨v.text.utf8ByteSize, v.text.utf8ByteSize⟩⟩]) ∧
    (v = .int Int64.minValue → tokenize v.text = .error (.invalidNumber "9223372036854775808" 1)) := by
  have parts := Value.textParts (Value.finiteNumber finite)
  refine ⟨fun plus => ?_, fun minus other => ?_, fun least => ?_⟩
  · have other : v ≠ .int Int64.minValue := by
      intro least
      rw [least] at plus
      exact absurd plus (by decide)
    have scan := (Value.bodyLexeme finite other).scan 0
    have same : v.text.toList = v.body := by rw [parts, Value.sign, plus]; rfl
    rw [Value.unsigned, plus, ← same, Nat.zero_add] at scan
    rw [sourceSize scan]
    exact tokenizeScan scan
  · have scan := minusScan ((Value.bodyLexeme finite other).scan 1)
    have same : v.text.toList = '-' :: v.body := by rw [parts, Value.sign, minus]; rfl
    have length : v.text.toList.length = 1 + v.body.length := by
      rw [same, List.length_cons, Nat.add_comm]
    rw [Value.unsigned, minus, ← same, ← length] at scan
    rw [sourceSize scan]
    exact tokenizeScan scan
  · rw [least]
    decide +kernel

theorem textReadsBackLarge :
    (Value.float (-1e23)).IsFinite ∧ (Value.float (-1e23)).text = "-99999999999999991611392.0" ∧
      tokenize (Value.float (-1e23)).text = .ok [⟨.operator .sub, ⟨0, 1⟩⟩,
        ⟨.number (.float 1e23), ⟨1, 26⟩⟩, ⟨.endOfInput, ⟨26, 26⟩⟩] := by
  have finite : (Value.float (-1e23)).IsFinite := by
    change Binary64.magnitude _ < _
    decide +kernel
  have shown : (Value.float (-1e23)).text = "-99999999999999991611392.0" := by decide +kernel
  have negated : (Value.float (-1e23)).negated = .float 1e23 := by decide +kernel
  have read := (textReadsBack _ finite).2.1 (by decide +kernel) (by simp)
  rw [negated] at read
  refine ⟨finite, shown, ?_⟩
  rw [read, shown]
  rfl

end CalcLang
