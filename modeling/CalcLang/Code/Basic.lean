import CalcLang.Bindings
import CalcLang.Value.Text

/-! Code for the stack machine. A code object belongs to one function or to the top level;
its instructions run in order, and literals are kept in its own pool. -/
namespace CalcLang

inductive Instruction where
  | pushConst (index : Nat)
  | loadVar (name : String)
  | storeVar (name : String)
  | loadLocal (name : String)
  | pop
  | apply (op : Operator)
  | call (name : String) (argc : Nat)
  | ret
  deriving DecidableEq, Repr

structure CodeObject where
  params : List String
  instructions : Array Instruction
  constants : Array Value
  deriving DecidableEq

structure Executable where
  main : CodeObject
  functions : Bindings CodeObject
  deriving DecidableEq

def Operator.mnemonic : Operator → String
  | .add => "ADD"
  | .sub => "SUB"
  | .mul => "MUL"
  | .div => "DIV"
  | .pow => "POW"

def Instruction.text : Instruction → String
  | pushConst index => "PUSH_CONST " ++ toString index
  | loadVar name => "LOAD_VAR " ++ name
  | storeVar name => "STORE_VAR " ++ name
  | loadLocal name => "LOAD_LOCAL " ++ name
  | pop => "POP"
  | apply op => op.mnemonic
  | call name argc => "CALL " ++ name ++ " " ++ toString argc
  | ret => "RET"

def offsetText (offset : Nat) : String :=
  String.ofList ((Nat.toDigits 10 offset).leftpad 4 ' ')

namespace CodeObject

def line (code : CodeObject) (offset : Nat) (instruction : Instruction) : String :=
  let literal :=
    match instruction with
    | .pushConst index =>
      match code.constants[index]? with
      | some value => "  (" ++ value.text ++ ")"
      | none => ""
    | _ => ""
  offsetText offset ++ "  " ++ instruction.text ++ literal ++ "\n"

def listing (code : CodeObject) : String :=
  String.join (code.instructions.mapIdx code.line).toList

end CodeObject

def Executable.listing (x : Executable) : String :=
  let functions := x.functions.entries.map fun (name, code) =>
    "function " ++ name ++ "(" ++ ", ".intercalate code.params ++ "):\n" ++ code.listing
  String.join functions ++ "main:\n" ++ x.main.listing

end CalcLang
