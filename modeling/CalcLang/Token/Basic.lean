import CalcLang.Value.Text

/-! Tokens: what a stretch of source text stands for, and where it stands. Spans count
bytes of the source. -/
namespace CalcLang

structure Span where
  start : Nat
  stop : Nat
  deriving DecidableEq, Repr

inductive TokenKind where
  | number (value : Value)
  | identifier (name : String)
  | function
  | assign
  | operator (op : Operator)
  | comma
  | leftParen
  | rightParen
  | newline
  | endOfInput
  deriving DecidableEq

structure Token where
  kind : TokenKind
  span : Span
  deriving DecidableEq

namespace TokenKind

def text : TokenKind → String
  | number value => "NUMBER(" ++ value.text ++ ")"
  | identifier name => "ID(" ++ name ++ ")"
  | function => "FUNCTION"
  | assign => "ASSIGN"
  | operator op => "OP(" ++ op.symbol.toString ++ ")"
  | comma => "COMMA"
  | leftParen => "LPAREN"
  | rightParen => "RPAREN"
  | newline => "NEWLINE"
  | endOfInput => "EOF"

def ofSymbol? : Char → Option TokenKind
  | '=' => some assign
  | ',' => some comma
  | '(' => some leftParen
  | ')' => some rightParen
  | '\n' => some newline
  | c => (Operator.ofSymbol? c).map operator

def ofWord (word : String) : TokenKind :=
  if word = "function" then function else identifier word

end TokenKind

def Token.text (t : Token) : String := t.kind.text ++ " @ " ++ toString t.span.start

end CalcLang
