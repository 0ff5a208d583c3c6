import CalcLang.Tree.Evaluate

/-! The meaning of integer programs over the unbounded integers. Statements and calls go the
same way as in a run, but sums, differences and products always have a result; every one of
them is noted, in the order in which they are carried out. Literals that are no integers and
the operators that leave the integers have no meaning here. -/
namespace CalcLang

structure IntegerOperation where
  kind : Overflow
  result : Int
  deriving DecidableEq, Repr

inductive ExactStop where
  | error (e : RunError)
  | notInteger
  deriving DecidableEq, Repr

structure Exact (α : Type) where
  operations : List IntegerOperation
  result : Except ExactStop α

namespace Exact

variable {α β : Type}

def done (a : α) : Exact α := ⟨[], .ok a⟩

def failed (e : RunError) : Exact α := ⟨[], .error (.error e)⟩

def after (earlier : List IntegerOperation) (m : Exact α) : Exact α :=
  ⟨earlier ++ m.operations, m.result⟩

def bind (m : Exact α) (k : α → Exact β) : Exact β :=
  match m.result with
  | .ok a => (k a).after m.operations
  | .error stop => ⟨m.operations, .error stop⟩

def carryOut (kind : Overflow) (n : Int) : Exact Int := ⟨[⟨kind, n⟩], .ok n⟩

end Exact

def Value.exact : Value → Exact Int
  | .int n => .done n.toInt
  | .float _ => ⟨[], .error .notInteger⟩

def Operator.exact (a b : Int) : Operator → Exact Int
  | .add => .carryOut .addition (a + b)
  | .sub => .carryOut .subtraction (a - b)
  | .mul => .carryOut .multiplication (a * b)
  | .div => ⟨[], .error .notInteger⟩
  | .pow => ⟨[], .error .notInteger⟩

namespace Expr

mutual

def evaluateExact (functions : Bindings Definition) (globals : Bindings Int) (limit depth : Nat)
    (locals : Bindings Int) : Expr → Exact Int
  | number value => value.exact
  | var name =>
    match (locals.get? name).or (globals.get? name) with
    | some n => .done n
    | none => .failed (.undefinedVariable name)
  | binary op left right =>
    (left.evaluateExact functions globals limit depth locals).bind fun a =>
      (right.evaluateExact functions globals limit depth locals).bind fun b => op.exact a b
  | call (var name) args =>
    (evaluateAllExact functions globals limit depth locals args).bind fun numbers =>
      match functions.get? name with
      | none => .failed (.undefinedFunction name)
      | some f =>
        if args.length ≠ f.params.length then
          .failed (.arityMismatch name f.params.length args.length)
        else if limit < depth + 1 then .failed (.recursionLimit limit)
        else f.body.evaluateExact functions globals limit (depth + 1) (.ofPairs (f.params.zip numbers))
  | call _ _ => .failed (.undefinedFunction "<expr>")
termination_by e => (limit - depth, sizeOf e)
decreasing_by
  · apply Prod.Lex.right; simp only [Expr.binary.sizeOf_spec]; omega
  · apply Prod.Lex.right; simp only [Expr.binary.sizeOf_spec]; omega
  · apply Prod.Lex.right; simp only [Expr.call.sizeOf_spec, Expr.var.sizeOf_spec]; omega
  · apply Prod.Lex.left; omega

def evaluateAllExact (functions : Bindings Definition) (globals : Bindings Int) (limit depth : Nat)
    (locals : Bindings Int) : List Expr → Exact (List Int)
  | [] => .done []
  | e :: rest =>
    (e.evaluateExact functions globals limit depth locals).bind fun n =>
      (evaluateAllExact functions globals limit depth locals rest).bind fun numbers =>
        .done (n :: numbers)
termination_by es => (limit - depth, sizeOf es)
decreasing_by
  · apply Prod.Lex.right; simp only [List.cons.sizeOf_spec]; omega
  · apply Prod.Lex.right; simp only [List.cons.sizeOf_spec]; omega

end

mutual

def isIntegral : Expr → Bool
  | number (.int _) => true
  | number (.float _) => false
  | var _ => true
  | binary op left right => op ≠ .div && op ≠ .pow && left.isIntegral && right.isIntegral
  | call callee args => callee.isIntegral && allIntegral args

def allIntegral : List Expr → Bool
  | [] => true
  | e :: rest => e.isIntegral && allIntegral rest

end

end Expr

def Statement.effectExact (functions : Bindings Definition) (limit : Nat) (globals : Bindings Int) :
    Statement → Exact (Bindings Int)
  | define .. => .done globals
  | assign name value =>
    (value.evaluateExact functions globals limit 0 .empty).bind fun n => .done (globals.insert name n)
  | eval expr =>
    (expr.evaluateExact functions globals limit 0 .empty).bind fun _ => .done globals

structure ExactOutcome where
  operations : List IntegerOperation
  result : Except ExactStop Unit
  globals : Bindings Int

def evaluateStatementsExact (functions : Bindings Definition) (limit : Nat) (globals : Bindings Int) :
    List Statement → ExactOutcome
  | [] => ⟨[], .ok (), globals⟩
  | s :: rest =>
    let here := s.effectExact functions limit globals
    match here.result with
    | .error stop => ⟨here.operations, .error stop, globals⟩
    | .ok next =>
      let later := evaluateStatementsExact functions limit next rest
      { later with operations := here.operations ++ later.operations }

def Program.evaluateExact (p : Program) (limit : Nat) : ExactOutcome :=
  evaluateStatementsExact p.functions limit .empty p.statements

end CalcLang
