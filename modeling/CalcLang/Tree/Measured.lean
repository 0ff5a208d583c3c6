import CalcLang.Tree.Basic

/-! Expressions that carry their height, for building trees under a height limit without
walking them again. -/
namespace CalcLang

structure Measured where
  expr : Expr
  height : Nat
  heightEq : height = expr.height

namespace Measured

def number (value : Value) : Measured := ⟨.number value, 0, by simp [Expr.height]⟩

def var (name : String) : Measured := ⟨.var name, 0, by simp [Expr.height]⟩

def binary (op : Operator) (left right : Measured) : Measured :=
  ⟨.binary op left.expr right.expr, max left.height right.height + 1, by
    simp [Expr.height, left.heightEq, right.heightEq]⟩

def tallest (args : List Measured) : Nat := args.foldl (fun h m => max h m.height) 0

theorem tallestFrom (start : Nat) (args : List Measured) :
    args.foldl (fun h m => max h m.height) start =
      max start (Expr.tallest (args.map Measured.expr)) := by
  induction args generalizing start with
  | nil => simp [Expr.tallest]
  | cons m rest ih => simp [Expr.tallest, ih, m.heightEq, Nat.max_assoc]

def call (callee : Measured) (args : List Measured) : Measured :=
  ⟨.call callee.expr (args.map Measured.expr), max callee.height (tallest args) + 1, by
    simp [Expr.height, tallest, tallestFrom, callee.heightEq]⟩

end Measured
end CalcLang
