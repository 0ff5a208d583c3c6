import CalcLang.Code.Basic
import CalcLang.Tree.Basic

/-! Compiling a program. Operands are pushed from left to right and consumed by the
instruction that follows them, so the code of an expression leaves one value. Literals that
agree share a slot of the pool. -/
namespace CalcLang

inductive CompileError where
  | duplicateFunction (name : String)
  | unsupportedCallee
  deriving DecidableEq, Repr

def CompileError.message : CompileError → String
  | duplicateFunction name => "Duplicate function definition '" ++ name ++ "'"
  | unsupportedCallee => "Unsupported call target: only named functions can be called"

structure Draft where
  instructions : Array Instruction
  constants : Array Value
  deriving DecidableEq

namespace Draft

def empty : Draft := ⟨#[], #[]⟩

def push (d : Draft) (i : Instruction) : Draft := { d with instructions := d.instructions.push i }

def literal (d : Draft) (value : Value) : Draft :=
  match d.constants.findIdx? (·.agrees value) with
  | some index => d.push (.pushConst index)
  | none => { d with constants := d.constants.push value }.push (.pushConst d.constants.size)

def finish (d : Draft) (params : List String) : CodeObject :=
  ⟨params, d.instructions.push .ret, d.constants⟩

end Draft

namespace Expr

mutual

def emit (params : List String) : Expr → Draft → Except CompileError Draft
  | number value, d => .ok (d.literal value)
  | var name, d => .ok (d.push (if name ∈ params then .loadLocal name else .loadVar name))
  | binary op left right, d => do
    let d ← left.emit params d
    let d ← right.emit params d
    .ok (d.push (.apply op))
  | call (var name) args, d => do
    let d ← emitAll params args d
    .ok (d.push (.call name args.length))
  | call _ _, _ => .error .unsupportedCallee

def emitAll (params : List String) : List Expr → Draft → Except CompileError Draft
  | [], d => .ok d
  | e :: rest, d => do
    let d ← e.emit params d
    emitAll params rest d

end

end Expr

def compileBody (params : List String) (body : Expr) : Except CompileError CodeObject := do
  let d ← body.emit params .empty
  .ok (d.finish params)

def compileFunctions (table : Bindings CodeObject) :
    List Statement → Except CompileError (Bindings CodeObject)
  | [] => .ok table
  | .define name params body :: rest =>
    if table.contains name then .error (.duplicateFunction name)
    else do
      let code ← compileBody params body
      compileFunctions (table.insert name code) rest
  | _ :: rest => compileFunctions table rest

def emitStatements : List Statement → Draft → Except CompileError Draft
  | [], d => .ok d
  | .define .. :: rest, d => emitStatements rest d
  | .assign name value :: rest, d => do
    let d ← value.emit [] d
    emitStatements rest (d.push (.storeVar name))
  | .eval expr :: rest, d => do
    let d ← expr.emit [] d
    emitStatements rest (d.push .pop)

def Program.compile (p : Program) : Except CompileError Executable := do
  let functions ← compileFunctions .empty p.statements
  let main ← emitStatements p.statements .empty
  .ok ⟨main.finish [], functions⟩

end CalcLang
