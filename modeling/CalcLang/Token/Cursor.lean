import CalcLang.Token.Basic

/-! Cutting a source into tokens. A cursor is the unread text together with its byte
offset. Tokens and the blanks between them are ASCII, so reading `n` characters moves the
offset by `n`; a character outside every token class is reported and stays unread, while
the digits of an integer that is too large are read and reported. -/
namespace CalcLang

inductive LexError where
  | unexpectedCharacter (character : Char) (position : Nat)
  | invalidNumber (literal : String) (position : Nat)
  deriving DecidableEq, Repr

def LexError.message : LexError → String
  | unexpectedCharacter c position =>
    "Unexpected character '" ++ c.toString ++ "' at position " ++ toString position
  | invalidNumber literal position =>
    "Invalid number literal '" ++ literal ++ "' at position " ++ toString position

structure Cursor where
  rest : List Char
  offset : Nat
  deriving DecidableEq, Repr

namespace Cursor

def ofSource (source : String) : Cursor := ⟨source.toList, 0⟩

def isBlank (c : Char) : Bool := c == ' ' || c == '\t' || c == '\r'

def isWordStart (c : Char) : Bool := c.isAlpha || c == '_'

def isWordPart (c : Char) : Bool := c.isAlphanum || c == '_'

def advance (c : Cursor) (count : Nat) : Cursor := ⟨c.rest.drop count, c.offset + count⟩

def skipBlanks (c : Cursor) : Cursor := c.advance (c.rest.takeWhile isBlank).length

def emit (c : Cursor) (kind : TokenKind) (count : Nat) : Except LexError Token × Cursor :=
  (.ok ⟨kind, ⟨c.offset, c.offset + count⟩⟩, c.advance count)

def fractionOf : List Char → List Char
  | '.' :: rest => rest.takeWhile Char.isDigit
  | _ => []

def number (c : Cursor) : Except LexError Token × Cursor :=
  let whole := c.rest.takeWhile Char.isDigit
  let fraction := fractionOf (c.rest.dropWhile Char.isDigit)
  if fraction.isEmpty then
    let n := Nat.ofDigitChars 10 whole 0
    if n ≤ Int64.maxValue.toInt.toNat then c.emit (.number (.int (Int64.ofNat n))) whole.length
    else (.error (.invalidNumber (String.ofList whole) c.offset), c.advance whole.length)
  else
    let word := Binary64.ofDecimal (Decimal.ofDigits whole fraction)
    c.emit (.number (.float (Binary64.ofMagnitude word))) (whole.length + 1 + fraction.length)

def word (c : Cursor) : Except LexError Token × Cursor :=
  let letters := c.rest.takeWhile isWordPart
  c.emit (TokenKind.ofWord (String.ofList letters)) letters.length

def next (c : Cursor) : Except LexError Token × Cursor :=
  let c := c.skipBlanks
  match c.rest with
  | [] => c.emit .endOfInput 0
  | first :: _ =>
    if first.isDigit then c.number
    else if isWordStart first then c.word
    else
      match TokenKind.ofSymbol? first with
      | some kind => c.emit kind 1
      | none => (.error (.unexpectedCharacter first c.offset), c)

theorem advanceLength (c : Cursor) (count : Nat) :
    (c.advance count).rest.length = c.rest.length - count := by
  simp [advance]

theorem skipBlanksLength (c : Cursor) : c.skipBlanks.rest.length ≤ c.rest.length := by
  simp [skipBlanks, advanceLength]

private theorem takenPositive {p : Char → Bool} {c : Char} {cs : List Char} (h : p c = true) :
    0 < ((c :: cs).takeWhile p).length := by
  simp [h]

theorem numberShorter {c : Cursor} {first : Char} {more : List Char}
    (head : c.rest = first :: more) (digit : first.isDigit = true) :
    c.number.2.rest.length < c.rest.length := by
  have positive : 0 < (c.rest.takeWhile Char.isDigit).length := by
    rw [head]; exact takenPositive digit
  have nonempty : 0 < c.rest.length := by simp [head]
  unfold number
  dsimp only
  split
  · split <;> simp only [emit, advanceLength] <;> omega
  · simp only [emit, advanceLength]; omega

theorem wordShorter {c : Cursor} {first : Char} {more : List Char}
    (head : c.rest = first :: more) (start : isWordStart first = true) :
    c.word.2.rest.length < c.rest.length := by
  have part : isWordPart first = true := by
    simp only [isWordStart, isWordPart, Char.isAlphanum, Bool.or_eq_true] at start ⊢
    exact start.imp Or.inl id
  have positive : 0 < (c.rest.takeWhile isWordPart).length := by
    rw [head]; exact takenPositive part
  have nonempty : 0 < c.rest.length := by simp [head]
  simp only [word, emit, advanceLength]
  omega

theorem nextShorter {c after : Cursor} {t : Token} (found : c.next = (.ok t, after))
    (more : t.kind ≠ .endOfInput) : after.rest.length < c.rest.length := by
  have skipped := c.skipBlanksLength
  unfold next at found
  dsimp only at found
  split at found
  · cases found; exact absurd rfl more
  · rename_i first rest head
    split at found
    · rename_i digit
      have := numberShorter head digit
      rw [found] at this
      exact Nat.lt_of_lt_of_le this skipped
    · split at found
      · rename_i start
        have := wordShorter head start
        rw [found] at this
        exact Nat.lt_of_lt_of_le this skipped
      · split at found
        · cases found
          simp only [advanceLength]
          rw [head] at skipped ⊢
          simp only [List.length_cons] at skipped ⊢
          omega
        · simp at found

end Cursor
end CalcLang
