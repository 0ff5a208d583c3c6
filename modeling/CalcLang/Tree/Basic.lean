import CalcLang.Value.Basic

/-! Programs as trees. The trees are wider than what can be written: any expression may be
called, and a literal may be any value. The height of a tree counts operators and calls
along its longest path. -/
namespace CalcLang

inductive Expr where
  | number (value : Value)
  | var (name : String)
  | binary (op : Operator) (left right : Expr)
  | call (callee : Expr) (args : List Expr)

inductive Statement where
  | define (name : String) (params : List String) (body : Expr)
  | assign (name : String) (value : Expr)
  | eval (expr : Expr)

structure Program where
  statements : List Statement

structure Definition where
  name : String
  params : List String
  body : Expr

namespace Expr

@[induction_eliminator, elab_as_elim]
theorem inductionOn {motive : Expr → Prop} (number : ∀ value, motive (.number value))
    (var : ∀ name, motive (.var name))
    (binary : ∀ op left right, motive left → motive right → motive (.binary op left right))
    (call : ∀ callee args, motive callee → (∀ arg ∈ args, motive arg) → motive (.call callee args))
    (e : Expr) : motive e :=
  @Expr.rec motive (fun args => ∀ arg ∈ args, motive arg) number var binary call (by simp)
    (fun _ _ head tail => by simpa using ⟨head, tail⟩) e

def name? : Expr → Option String
  | var name => some name
  | _ => none

mutual

def height : Expr → Nat
  | number _ => 0
  | var _ => 0
  | binary _ left right => max left.height right.height + 1
  | call callee args => max callee.height (tallest args) + 1

def tallest : List Expr → Nat
  | [] => 0
  | e :: rest => max e.height (tallest rest)

end

end Expr

namespace Program

def definitions (p : Program) : List Definition :=
  p.statements.filterMap fun
    | .define name params body => some ⟨name, params, body⟩
    | _ => none

def assigned (p : Program) : List String :=
  p.statements.filterMap fun
    | .assign name _ => some name
    | _ => none

end Program
end CalcLang
