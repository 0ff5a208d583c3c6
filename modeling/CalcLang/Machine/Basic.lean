import CalcLang.Code.Basic
import CalcLang.Outcome

/-! The stack machine. Each activation of a code object has its own operand stack and its
own locals; the globals are shared. A call suspends the running frame until the callee
returns, and the frames are a list, so the depth of calls is bounded only by the limit a
run is given. Running past the last instruction returns without a value. -/
namespace CalcLang

structure Frame where
  code : CodeObject
  ip : Nat
  -- the top comes first
  stack : List Value
  locals : Bindings Value
  depth : Nat
  deriving DecidableEq

structure Suspended where
  frame : Frame
  callee : String
  deriving DecidableEq

/-- The running frame, the suspended ones from the innermost outwards, and the globals. -/
structure State where
  frame : Frame
  suspended : List Suspended
  globals : Globals
  deriving DecidableEq

inductive Effect where
  | proceed (frame : Frame) (globals : Globals)
  | enter (caller : Frame) (name : String) (callee : Frame)
  | leave (value : Option Value)

inductive Step where
  | next (state : State)
  | stopped (outcome : Outcome)

namespace Frame

def start (code : CodeObject) (locals : Bindings Value) (depth : Nat) : Frame :=
  ⟨code, 0, [], locals, depth⟩

def current? (f : Frame) : Option Instruction := f.code.instructions[f.ip]?

def advance (f : Frame) (stack : List Value) : Frame := { f with ip := f.ip + 1, stack := stack }

def enter (x : Executable) (limit : Nat) (f : Frame) (name : String) (argc : Nat) :
    Except RunError Effect :=
  match x.functions.get? name with
  | none => .error (.undefinedFunction name)
  | some code =>
    if argc ≠ code.params.length then .error (.arityMismatch name code.params.length argc)
    else if limit < f.depth + 1 then .error (.recursionLimit limit)
    else if f.stack.length < argc then .error .stackUnderflow
    else
      let args := (f.stack.take argc).reverse
      .ok (.enter (f.advance (f.stack.drop argc)) name
        (start code (.ofPairs (code.params.zip args)) (f.depth + 1)))

def perform (x : Executable) (limit : Nat) (globals : Globals) (f : Frame) :
    Instruction → Except RunError Effect
  | .pushConst index =>
    match f.code.constants[index]? with
    | some value => .ok (.proceed (f.advance (value :: f.stack)) globals)
    | none => .error (.invalidConstant index)
  | .loadVar name =>
    match (f.locals.get? name).or (globals.get? name) with
    | some value => .ok (.proceed (f.advance (value :: f.stack)) globals)
    | none => .error (.undefinedVariable name)
  | .storeVar name =>
    match f.stack with
    | value :: rest => .ok (.proceed (f.advance rest) (globals.insert name value))
    | [] => .error .stackUnderflow
  | .loadLocal name =>
    match f.locals.get? name with
    | some value => .ok (.proceed (f.advance (value :: f.stack)) globals)
    | none => .error (.undefinedLocal name)
  | .pop =>
    match f.stack with
    | _ :: rest => .ok (.proceed (f.advance rest) globals)
    | [] => .error .stackUnderflow
  | .apply op =>
    match f.stack with
    | right :: left :: rest =>
      match left.apply op right with
      | .ok value => .ok (.proceed (f.advance (value :: rest)) globals)
      | .error operation => .error (.overflow operation)
    | _ => .error .stackUnderflow
  | .call name argc => f.enter x limit name argc
  | .ret => .ok (.leave f.stack.head?)

end Frame

namespace State

def initial (x : Executable) : State := ⟨.start x.main .empty 0, [], .empty⟩

def resume (s : State) (value : Option Value) : Step :=
  match s.suspended with
  | [] => .stopped ⟨.ok value, s.globals⟩
  | waiting :: rest =>
    match value with
    | some v =>
      .next ⟨{ waiting.frame with stack := v :: waiting.frame.stack }, rest, s.globals⟩
    | none => .stopped ⟨.error (.missingReturnValue waiting.callee), s.globals⟩

def step (x : Executable) (limit : Nat) (s : State) : Step :=
  match s.frame.current? with
  | none => s.resume none
  | some instruction =>
    match s.frame.perform x limit s.globals instruction with
    | .error e => .stopped ⟨.error e, s.globals⟩
    | .ok (.proceed frame globals) => .next ⟨frame, s.suspended, globals⟩
    | .ok (.enter caller name callee) => .next ⟨callee, ⟨caller, name⟩ :: s.suspended, s.globals⟩
    | .ok (.leave value) => s.resume value

end State
end CalcLang
