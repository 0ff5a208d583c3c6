import CalcLang.Checks.Basic

/-! What the checks stand for. A well-formed program defines each function once and gives it
distinct parameters, calls only functions it defines and with as many arguments as they have
parameters, and reads a variable only below an assignment of it or as a parameter. The
violations of a program are listed in the order in which they are met when reading it. -/
namespace CalcLang

namespace Expr

mutual

def calls : Expr → List (Expr × List Expr)
  | number _ => []
  | var _ => []
  | binary _ left right => left.calls ++ right.calls
  | call callee args => (callee, args) :: (callee.calls ++ callsOf args)

def callsOf : List Expr → List (Expr × List Expr)
  | [] => []
  | e :: rest => e.calls ++ callsOf rest

end

mutual

def reads : Expr → List String
  | number _ => []
  | var name => [name]
  | binary _ left right => left.reads ++ right.reads
  | call (var _) args => readsOf args
  | call callee args => callee.reads ++ readsOf args

def readsOf : List Expr → List String
  | [] => []
  | e :: rest => e.reads ++ readsOf rest

end

end Expr

namespace Statement

def expr : Statement → Expr
  | define _ _ body => body
  | assign _ value => value
  | eval e => e

def params : Statement → List String
  | define _ params _ => params
  | _ => []

end Statement

structure Program.WellFormed (p : Program) : Prop where
  functions : (p.definitions.map Definition.name).Nodup
  parameters : ∀ d ∈ p.definitions, d.params.Nodup
  calls : ∀ s ∈ p.statements, ∀ c ∈ s.expr.calls, ∃ name, c.1 = .var name ∧
    ∃ d ∈ p.definitions, d.name = name ∧ d.params.length = c.2.length
  reads : ∀ (i : Nat) (s : Statement), p.statements[i]? = some s → ∀ name ∈ s.expr.reads,
    name ∈ s.params ∨ ∃ j < i, ∃ value, p.statements[j]? = some (.assign name value)

def Program.arity? (p : Program) (name : String) : Option Nat :=
  (p.definitions.find? fun d => d.name = name).map fun d => d.params.length

namespace Expr

mutual

/-- The faults of an expression from left to right, a call's own fault before those of its
arguments; `scope` holds the variables that may be read. -/
def violations (arity? : String → Option Nat) (scope : List String) : Expr → List CheckError
  | number _ => []
  | var name => if name ∈ scope then [] else [.undefinedVariable name]
  | binary _ left right => left.violations arity? scope ++ right.violations arity? scope
  | call (var name) args =>
    (match arity? name with
      | none => [.undefinedFunction name]
      | some expected =>
        if args.length = expected then [] else [.arityMismatch name expected args.length]) ++
      violationsOf arity? scope args
  | call _ args => .unsupportedCallee :: violationsOf arity? scope args

def violationsOf (arity? : String → Option Nat) (scope : List String) : List Expr → List CheckError
  | [] => []
  | e :: rest => e.violations arity? scope ++ violationsOf arity? scope rest

end

end Expr

def repetitions (seen : List String) : List String → List String
  | [] => []
  | n :: rest => if n ∈ seen then n :: repetitions seen rest else repetitions (n :: seen) rest

def statementViolations (arity? : String → Option Nat) (globals : List String) :
    List Statement → List CheckError
  | [] => []
  | .define name params body :: rest =>
    (repetitions [] params).map (.duplicateParameter name) ++
      body.violations arity? (params ++ globals) ++ statementViolations arity? globals rest
  | .assign name value :: rest =>
    value.violations arity? globals ++ statementViolations arity? (name :: globals) rest
  | .eval e :: rest => e.violations arity? globals ++ statementViolations arity? globals rest

def Program.violations (p : Program) : List CheckError :=
  (repetitions [] (p.definitions.map Definition.name)).map .duplicateFunction ++
    statementViolations p.arity? [] p.statements

end CalcLang
