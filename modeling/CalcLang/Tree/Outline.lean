import CalcLang.Tree.Basic
import CalcLang.Value.Text

/-! Programs as indented outlines: one row per node, children below their parent and one
step further in. A call of a name carries the name in its own row. -/
namespace CalcLang

structure Row where
  depth : Nat
  label : String
  deriving DecidableEq, Repr

def Row.text (r : Row) : String :=
  String.ofList (List.replicate (2 * r.depth) ' ') ++ r.label ++ "\n"

def outline (rows : List Row) : String := String.join (rows.map Row.text)

namespace Expr

mutual

def rows (depth : Nat) : Expr → List Row
  | number value => [⟨depth, "Number(" ++ value.text ++ ")"⟩]
  | var name => [⟨depth, "Var(" ++ name ++ ")"⟩]
  | binary op left right =>
    ⟨depth, "BinaryOp(" ++ op.symbol.toString ++ ")"⟩ ::
      (left.rows (depth + 1) ++ right.rows (depth + 1))
  | call (var name) args => ⟨depth, "Call(" ++ name ++ ")"⟩ :: rowsOf (depth + 1) args
  | call callee args =>
    ⟨depth, "Call(<expr>)"⟩ :: (callee.rows (depth + 1) ++ rowsOf (depth + 1) args)

def rowsOf (depth : Nat) : List Expr → List Row
  | [] => []
  | e :: rest => e.rows depth ++ rowsOf depth rest

end

end Expr

def Statement.rows (depth : Nat) : Statement → List Row
  | define name params body =>
    ⟨depth, "FunctionDef(" ++ name ++ ", params=[" ++ ", ".intercalate params ++ "])"⟩ ::
      body.rows (depth + 1)
  | assign name value => ⟨depth, "Assign(" ++ name ++ ")"⟩ :: value.rows (depth + 1)
  | eval expr => expr.rows depth

def Statement.text (s : Statement) : String := outline (s.rows 0)

def Program.rows (p : Program) : List Row :=
  ⟨0, "Program:"⟩ :: p.statements.flatMap (Statement.rows 1)

def Program.text (p : Program) : String := outline p.rows

end CalcLang
