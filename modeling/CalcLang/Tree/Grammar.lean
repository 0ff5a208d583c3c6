import CalcLang.Token.Basic
import CalcLang.Tree.Basic

/-! The grammar of programs over token kinds. Phrases are indexed by their level, from sums
to primaries, and by how many parentheses and argument lists are open around the most
enclosed expression in them. A binary phrase has its own level on the left and the next
tighter one on the right, so every level groups to the left. Statements need no separator;
but behind an expression a parenthesis opens an argument list, so a statement that starts
with one only follows a line end. No cap on depth is part of the grammar. -/
namespace CalcLang.Grammar

inductive Level where
  | sum
  | product
  | power
  | call
  | primary
  deriving DecidableEq, Repr

def level : Operator → Level
  | .add => .sum
  | .sub => .sum
  | .mul => .product
  | .div => .product
  | .pow => .power

def Level.tighter : Level → Level
  | sum => product
  | product => power
  | power => call
  | call => primary
  | primary => primary

mutual

inductive Phrase : Level → Nat → List TokenKind → Expr → Prop
  | number (value : Value) : Phrase .primary 0 [.number value] (.number value)
  | name (name : String) : Phrase .primary 0 [.identifier name] (.var name)
  | group {nesting word e} (inner : Phrase .sum nesting word e) :
      Phrase .primary (nesting + 1) (.leftParen :: (word ++ [.rightParen])) e
  | call {nesting word callee deeper list args} (head : Phrase .call nesting word callee)
      (tail : Arguments deeper list args) :
      Phrase .call (max nesting deeper) (word ++ .leftParen :: (list ++ [.rightParen]))
        (.call callee args)
  | binary {op nesting word left deeper more right} (head : Phrase (level op) nesting word left)
      (tail : Phrase (level op).tighter deeper more right) :
      Phrase (level op) (max nesting deeper) (word ++ .operator op :: more) (.binary op left right)
  | loosen {l nesting word e} (tight : Phrase l.tighter nesting word e) : Phrase l nesting word e

inductive Arguments : Nat → List TokenKind → List Expr → Prop
  | none : Arguments 0 [] []
  | last {nesting word e} (only : Phrase .sum nesting word e) : Arguments (nesting + 1) word [e]
  | more {nesting word e deeper list next args} (first : Phrase .sum nesting word e)
      (others : Arguments deeper list (next :: args)) :
      Arguments (max (nesting + 1) deeper) (word ++ .comma :: list) (e :: next :: args)

end

def names : List String → List TokenKind
  | [] => []
  | [name] => [.identifier name]
  | name :: rest => .identifier name :: .comma :: names rest

inductive Clause : Nat → List TokenKind → Statement → Prop
  | define {nesting word body} (name : String) (params : List String)
      (value : Phrase .sum nesting word body) :
      Clause nesting
        (.function :: .identifier name :: .leftParen ::
          (names params ++ .rightParen :: .assign :: word))
        (.define name params body)
  | assign {nesting word e} (name : String) (value : Phrase .sum nesting word e) :
      Clause nesting (.identifier name :: .assign :: word) (.assign name e)
  | eval {nesting word e} (value : Phrase .sum nesting word e) : Clause nesting word (.eval e)

inductive Text : Nat → List TokenKind → List Statement → Prop
  | nil : Text 0 [] []
  | newline {nesting word statements} (rest : Text nesting word statements) :
      Text nesting (.newline :: word) statements
  | clause {nesting word s deeper more statements} (first : Clause nesting word s)
      (apart : more.head? ≠ some .leftParen) (rest : Text deeper more statements) :
      Text (max nesting deeper) (word ++ more) (s :: statements)

end CalcLang.Grammar
