import CalcLang.Tree.Grammar
import CalcLang.Tree.OfTokens

/-! Reading tokens by position. A walker stands on a token of a tape, looks at it, and goes on by
one token at a time; on the last token it stays where it is. It counts the expressions that are
open around it, and remembers every place it has been in. Nothing bounds a walk in advance: one
that leaves the tape or never ends has no outcome. -/
namespace CalcLang

structure Place where
  pos : Nat
  nesting : Nat
  deriving DecidableEq, Repr

structure Walker where
  place : Place
  earlier : List Place
  deriving DecidableEq, Repr

def Walker.start : Walker := ⟨⟨0, 0⟩, []⟩

def Walker.go (w : Walker) (next : Place) : Walker := ⟨next, w.place :: w.earlier⟩

abbrev Walk (α : Type) := ExceptT SyntaxError (StateT Walker Option) α

def Walk.ofResult {α : Type} (result : Except SyntaxError α) : Walk α := fun w => some (result, w)

abbrev Tape := List Token

namespace Tape

open Grammar (Level level)

def current (tape : Tape) : Walk Token := fun w =>
  tape[w.place.pos]?.map fun t => (.ok t, w)

def peek (tape : Tape) : Walk (Option Token) := fun w =>
  some (.ok tape[w.place.pos + 1]?, w)

def advance (tape : Tape) : Walk Unit := fun w =>
  let next := if w.place.pos + 1 < tape.length then w.place.pos + 1 else w.place.pos
  some (.ok (), w.go { w.place with pos := next })

def check (tape : Tape) (kind : TokenKind) : Walk Bool := do
  return decide ((← tape.current).kind = kind)

def refuse {α : Type} (tape : Tape) (expected : Expectation) : Walk α := do
  let t ← tape.current
  throw (.unexpected expected t.kind t.span.start)

def refuseDeep {α : Type} (tape : Tape) : Walk α := do
  throw (.tooDeep nestingLimit (← tape.current).span.start)

def expect (tape : Tape) (kind : TokenKind) (expected : Expectation) : Walk Unit := do
  if ← tape.check kind then tape.advance else tape.refuse expected

def close {α : Type} (tape : Tape) (a : α) : Walk α := do
  tape.expect .rightParen .rightParen
  return a

def identifier (tape : Tape) : Walk String := do
  match (← tape.current).kind with
  | .identifier name =>
    tape.advance
    return name
  | _ => tape.refuse .identifier

mutual

/-- An expression inside those that are open. It is counted while it is read; whether it could
be read or not, the count goes back. -/
def nested (tape : Tape) : Walk Measured := (do
  let w ← get
  if nestingLimit ≤ w.place.nesting then tape.refuseDeep.run
  else
    set (w.go { w.place with nesting := w.place.nesting + 1 })
    let result ← (tape |>.phrase .sum).run
    modify fun w => w.go { w.place with nesting := w.place.nesting - 1 }
    return result : StateT Walker Option (Except SyntaxError Measured))
partial_fixpoint

def phrase (tape : Tape) : Level → Walk Measured
  | .primary => do
    match (← tape.current).kind with
    | .number value =>
      tape.advance
      return .number value
    | .identifier name =>
      tape.advance
      return .var name
    | .leftParen =>
      tape.advance
      tape.close (← tape |>.nested)
    | _ => tape.refuse .expression
  | .call => do tape |>.calls (← tape |>.phrase .primary)
  | l => do tape |>.operations l (← tape |>.phrase l.tighter)
partial_fixpoint

def operations (tape : Tape) (l : Level) (left : Measured) : Walk Measured := do
  let t ← tape.current
  match t.kind with
  | .operator op =>
    if level op = l then
      tape.advance
      let right ← tape |>.phrase l.tighter
      tape |>.operations l (← Walk.ofResult (Reader.within t.span.start (left.binary op right)))
    else return left
  | _ => return left
partial_fixpoint

def calls (tape : Tape) (callee : Measured) : Walk Measured := do
  if ← tape.check .leftParen then
    let t ← tape.current
    tape.advance
    let args ← tape |>.argumentList
    tape |>.calls (← Walk.ofResult (Reader.within t.span.start (callee.call args)))
  else return callee
partial_fixpoint

def argumentList (tape : Tape) : Walk (List Measured) := do
  if ← tape.check .rightParen then tape.close [] else tape |>.arguments []
partial_fixpoint

def arguments (tape : Tape) (read : List Measured) : Walk (List Measured) := do
  let m ← tape |>.nested
  if ← tape.check .comma then
    tape.advance
    tape |>.arguments (m :: read)
  else tape.close (m :: read).reverse
partial_fixpoint

end

def expression (tape : Tape) : Walk Expr := do return (← tape.nested).expr

def moreParameters (tape : Tape) (read : List String) : Walk (List String) := do
  if ← tape.check .comma then
    tape.advance
    tape |>.moreParameters ((← tape.identifier) :: read)
  else tape.close read.reverse
partial_fixpoint

def parameters (tape : Tape) : Walk (List String) := do
  match (← tape.current).kind with
  | .identifier _ => tape.moreParameters [← tape.identifier]
  | _ => tape.close []

def definition (tape : Tape) : Walk Statement := do
  tape.advance
  let name ← tape.identifier
  tape.expect .leftParen .leftParen
  let params ← tape.parameters
  tape.expect .assign .assign
  return .define name params (← tape.expression)

def assignment (tape : Tape) : Walk Statement := do
  let name ← tape.identifier
  tape.expect .assign .assign
  return .assign name (← tape.expression)

def statement (tape : Tape) : Walk Statement := do
  match (← tape.current).kind with
  | .function => tape.definition
  | .identifier _ =>
    if (← tape.peek).any (·.kind = .assign) then tape.assignment
    else return .eval (← tape.expression)
  | _ => return .eval (← tape.expression)

def skipNewline (tape : Tape) : Walk Unit := do
  if ← tape.check .newline then tape.advance

def statements (tape : Tape) (read : List Statement) : Walk (List Statement) := do
  if ← tape.check .endOfInput then return read.reverse
  else if ← tape.check .newline then
    tape.advance
    tape |>.statements read
  else
    let s ← tape.statement
    tape.skipNewline
    tape |>.statements (s :: read)
partial_fixpoint

def program (tape : Tape) : Walk Program := do return ⟨← tape.statements []⟩

end Tape
end CalcLang
