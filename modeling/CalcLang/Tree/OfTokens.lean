import CalcLang.Token.Basic
import CalcLang.Tree.Measured

/-! Reading tokens as a program. From loosest to tightest the levels are `+ -`, `* /`, `^`
and calls, each of them grouping to the left; a parenthesis right behind an expression
always opens an argument list. Two caps keep trees shallow: how many parentheses and
argument lists may be open around an expression, and how tall a tree may be.

A reader returns what it read with the tokens that follow, which are fewer than those it
was given; this is what ends every loop. The end of the input is not a token here: it is
the position `stop`. -/
namespace CalcLang

inductive Expectation where
  | identifier
  | leftParen
  | rightParen
  | assign
  | expression
  deriving DecidableEq, Repr

def Expectation.text : Expectation → String
  | identifier => "identifier"
  | leftParen => "("
  | rightParen => ")"
  | assign => "="
  | expression => "expression"

inductive SyntaxError where
  | unexpected (expected : Expectation) (found : TokenKind) (position : Nat)
  | tooDeep (limit position : Nat)
  deriving DecidableEq

def SyntaxError.message : SyntaxError → String
  | unexpected expected found position =>
    "Expected " ++ expected.text ++ " at position " ++ toString position ++ ", got " ++ found.text
  | tooDeep limit position =>
    "Expression nested deeper than " ++ toString limit ++ " levels at position " ++ toString position

def nestingLimit : Nat := 200

def heightLimit : Nat := 1000

structure Parsed (α : Type) (input : List Token) where
  value : α
  rest : List Token
  shorter : rest.length < input.length

abbrev Reader (α : Type) := (input : List Token) → Except SyntaxError (Parsed α input)

namespace Reader

def position (stop : Nat) : List Token → Nat
  | [] => stop
  | t :: _ => t.span.start

def unexpected (stop : Nat) (expected : Expectation) : List Token → SyntaxError
  | [] => .unexpected expected .endOfInput stop
  | t :: _ => .unexpected expected t.kind t.span.start

def within (position : Nat) (m : Measured) : Except SyntaxError Measured :=
  if heightLimit < m.height then .error (.tooDeep heightLimit position) else .ok m

def expect (stop : Nat) (kind : TokenKind) (expected : Expectation) : Reader Unit
  | t :: rest =>
    if t.kind = kind then .ok ⟨(), rest, by simp⟩ else .error (unexpected stop expected (t :: rest))
  | [] => .error (unexpected stop expected [])

def primary (stop : Nat) (inner : Reader Measured) : Reader Measured
  | ⟨.number value, _⟩ :: rest => .ok ⟨.number value, rest, by simp⟩
  | ⟨.identifier name, _⟩ :: rest => .ok ⟨.var name, rest, by simp⟩
  | ⟨.leftParen, _⟩ :: rest => do
    let e ← inner rest
    let closing ← expect stop .rightParen .rightParen e.rest
    .ok ⟨e.value, closing.rest, by
      have := e.shorter; have := closing.shorter; simp only [List.length_cons]; omega⟩
  | input => .error (unexpected stop .expression input)

def moreElements {α : Type} (stop : Nat) (element : Reader α) {input : List Token}
    (read : Parsed (List α) input) : Except SyntaxError (Parsed (List α) input) :=
  match ahead : read.rest with
  | ⟨.comma, _⟩ :: rest => do
    let e ← element rest
    have fewer : e.rest.length < read.rest.length := by
      have := e.shorter; simp only [ahead, List.length_cons]; omega
    moreElements stop element ⟨e.value :: read.value, e.rest, Nat.lt_trans fewer read.shorter⟩
  | ⟨.rightParen, _⟩ :: rest =>
    .ok ⟨read.value.reverse, rest, by
      have := read.shorter; simp only [ahead, List.length_cons] at this; omega⟩
  | rest => .error (unexpected stop .rightParen rest)
termination_by read.rest.length
decreasing_by exact fewer

def arguments (stop : Nat) (inner : Reader Measured) : Reader (List Measured)
  | ⟨.rightParen, _⟩ :: rest => .ok ⟨[], rest, by simp⟩
  | input => do
    let e ← inner input
    moreElements stop inner ⟨[e.value], e.rest, e.shorter⟩

def calls (stop : Nat) (inner : Reader Measured) {input : List Token}
    (read : Parsed Measured input) : Except SyntaxError (Parsed Measured input) :=
  match ahead : read.rest with
  | ⟨.leftParen, span⟩ :: rest => do
    let args ← arguments stop inner rest
    let value ← within span.start (read.value.call args.value)
    have fewer : args.rest.length < read.rest.length := by
      have := args.shorter; simp only [ahead, List.length_cons]; omega
    calls stop inner ⟨value, args.rest, Nat.lt_trans fewer read.shorter⟩
  | _ => .ok read
termination_by read.rest.length
decreasing_by exact fewer

def operand (stop : Nat) (inner : Reader Measured) : Reader Measured := fun input => do
  calls stop inner (← primary stop inner input)

def operations (level : Operator → Bool) (tighter : Reader Measured) {input : List Token}
    (read : Parsed Measured input) : Except SyntaxError (Parsed Measured input) :=
  match ahead : read.rest with
  | ⟨.operator op, span⟩ :: rest =>
    if level op then do
      let right ← tighter rest
      let value ← within span.start (read.value.binary op right.value)
      have fewer : right.rest.length < read.rest.length := by
        have := right.shorter; simp only [ahead, List.length_cons]; omega
      operations level tighter ⟨value, right.rest, Nat.lt_trans fewer read.shorter⟩
    else .ok read
  | _ => .ok read
termination_by read.rest.length
decreasing_by exact fewer

def leftAssoc (level : Operator → Bool) (tighter : Reader Measured) : Reader Measured :=
  fun input => do operations level tighter (← tighter input)

def isAdditive (op : Operator) : Bool := op = .add || op = .sub

def isMultiplicative (op : Operator) : Bool := op = .mul || op = .div

def isPower (op : Operator) : Bool := op = .pow

def nested (stop : Nat) : Nat → Reader Measured
  | 0 => fun input => .error (.tooDeep nestingLimit (position stop input))
  | levels + 1 =>
    leftAssoc isAdditive (leftAssoc isMultiplicative (leftAssoc isPower
      (operand stop (nested stop levels))))

def expression (stop room : Nat) : Reader Expr := fun input => do
  let e ← nested stop room input
  .ok ⟨e.value.expr, e.rest, e.shorter⟩

def identifier (stop : Nat) : Reader String
  | ⟨.identifier name, _⟩ :: rest => .ok ⟨name, rest, by simp⟩
  | input => .error (unexpected stop .identifier input)

def parameters (stop : Nat) : Reader (List String)
  | ⟨.identifier name, _⟩ :: rest => moreElements stop (identifier stop) ⟨[name], rest, by simp⟩
  | ⟨.rightParen, _⟩ :: rest => .ok ⟨[], rest, by simp⟩
  | input => .error (unexpected stop .rightParen input)

def definition (stop : Nat) (value : Reader Expr) : Reader Statement := fun input => do
  let name ← identifier stop input
  let opening ← expect stop .leftParen .leftParen name.rest
  let params ← parameters stop opening.rest
  let equals ← expect stop .assign .assign params.rest
  let body ← value equals.rest
  .ok ⟨.define name.value params.value body.value, body.rest, by
    have := name.shorter; have := opening.shorter; have := params.shorter
    have := equals.shorter; have := body.shorter; omega⟩

def statement (stop : Nat) (value : Reader Expr) : Reader Statement
  | ⟨.function, _⟩ :: rest => do
    let s ← definition stop value rest
    .ok ⟨s.value, s.rest, by have := s.shorter; simp only [List.length_cons]; omega⟩
  | ⟨.identifier name, _⟩ :: ⟨.assign, _⟩ :: rest => do
    let e ← value rest
    .ok ⟨.assign name e.value, e.rest, by have := e.shorter; simp only [List.length_cons]; omega⟩
  | input => do
    let e ← value input
    .ok ⟨.eval e.value, e.rest, e.shorter⟩

/-- Reads statements to the end; line ends between them are skipped and not needed.
`read` holds earlier statements, latest first. -/
def statements (stop : Nat) (read : List Statement) (input : List Token) :
    Except SyntaxError (List Statement) :=
  match input with
  | [] => .ok read.reverse
  | ⟨.newline, _⟩ :: rest => statements stop read rest
  | t :: rest => do
    let s ← statement stop (expression stop nestingLimit) (t :: rest)
    statements stop (s.value :: read) s.rest
termination_by input.length
decreasing_by
  · exact Nat.lt_succ_self _
  · exact s.shorter

end Reader

def TokenKind.isEnd : TokenKind → Bool
  | endOfInput => true
  | _ => false

def sentence (tokens : List Token) : List Token := tokens.takeWhile (!·.kind.isEnd)

def stopPosition (tokens : List Token) : Nat :=
  match tokens.find? (·.kind.isEnd) with
  | some t => t.span.start
  | none => (tokens.getLast?.map (·.span.stop)).getD 0

def Program.ofTokens (tokens : List Token) : Except SyntaxError Program := do
  let statements ← Reader.statements (stopPosition tokens) [] (sentence tokens)
  .ok ⟨statements⟩

end CalcLang
