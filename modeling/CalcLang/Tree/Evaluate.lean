import CalcLang.Outcome
import CalcLang.Tree.Basic

/-! The meaning of a program, read off its tree. Statements run in order on globals that
start out empty; a call evaluates its arguments from left to right and then the body of the
function with exactly its parameters bound. Only the depth of calls is bounded, by a limit
that every run is given. No code and no machine is involved. -/
namespace CalcLang

def Program.functions (p : Program) : Bindings Definition :=
  .ofPairs (p.definitions.map fun d => (d.name, d))

namespace Expr

mutual

/-- The value of an expression at a call depth, with the given parameters bound. An
expression that is no name names no function. -/
def evaluate (functions : Bindings Definition) (globals : Globals) (limit depth : Nat)
    (locals : Bindings Value) : Expr → Except RunError Value
  | number value => .ok value
  | var name =>
    match (locals.get? name).or (globals.get? name) with
    | some value => .ok value
    | none => .error (.undefinedVariable name)
  | binary op left right => do
    let a ← left.evaluate functions globals limit depth locals
    let b ← right.evaluate functions globals limit depth locals
    (a.apply op b).mapError .overflow
  | call (var name) args => do
    let values ← evaluateAll functions globals limit depth locals args
    match functions.get? name with
    | none => .error (.undefinedFunction name)
    | some f =>
      if args.length ≠ f.params.length then
        .error (.arityMismatch name f.params.length args.length)
      else if limit < depth + 1 then .error (.recursionLimit limit)
      else f.body.evaluate functions globals limit (depth + 1) (.ofPairs (f.params.zip values))
  | call _ _ => .error (.undefinedFunction "<expr>")
termination_by e => (limit - depth, sizeOf e)
decreasing_by
  · apply Prod.Lex.right; simp only [Expr.binary.sizeOf_spec]; omega
  · apply Prod.Lex.right; simp only [Expr.binary.sizeOf_spec]; omega
  · apply Prod.Lex.right; simp only [Expr.call.sizeOf_spec, Expr.var.sizeOf_spec]; omega
  · apply Prod.Lex.left; omega

def evaluateAll (functions : Bindings Definition) (globals : Globals) (limit depth : Nat)
    (locals : Bindings Value) : List Expr → Except RunError (List Value)
  | [] => .ok []
  | e :: rest => do
    let value ← e.evaluate functions globals limit depth locals
    let values ← evaluateAll functions globals limit depth locals rest
    .ok (value :: values)
termination_by es => (limit - depth, sizeOf es)
decreasing_by
  · apply Prod.Lex.right; simp only [List.cons.sizeOf_spec]; omega
  · apply Prod.Lex.right; simp only [List.cons.sizeOf_spec]; omega

end

end Expr

def evaluateStatements (functions : Bindings Definition) (limit : Nat) (globals : Globals) :
    List Statement → Outcome
  | [] => ⟨.ok none, globals⟩
  | .define .. :: rest => evaluateStatements functions limit globals rest
  | .assign name value :: rest =>
    match value.evaluate functions globals limit 0 .empty with
    | .ok v => evaluateStatements functions limit (globals.insert name v) rest
    | .error e => ⟨.error e, globals⟩
  | .eval expr :: rest =>
    match expr.evaluate functions globals limit 0 .empty with
    | .ok _ => evaluateStatements functions limit globals rest
    | .error e => ⟨.error e, globals⟩

def Program.evaluate (p : Program) (limit : Nat) : Outcome :=
  evaluateStatements p.functions limit .empty p.statements

end CalcLang
