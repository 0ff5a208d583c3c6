import CalcLang.Machine.Run

/-! Code read as a recursive procedure: instructions are carried out one after the other on
an operand stack and locals of their own, and a call runs its callee to the end on the
shared globals before the next instruction. There are no frames. -/
namespace CalcLang

/-- Carries out the instructions from offset `ip` on. Gives the value returned, or the
error, with the globals then, and the events in the order they happen. -/
def Executable.interpret (x : Executable) (limit depth : Nat) (constants : Array Value)
    (locals : Bindings Value) (ip : Nat) (stack : List Value) (globals : Globals) :
    List Instruction → Outcome × List Event
  | [] => (⟨.ok none, globals⟩, [])
  | i :: rest =>
    let event : Event := ⟨depth, ip, i, stack⟩
    let failed (e : RunError) : Outcome × List Event := (⟨.error e, globals⟩, [event])
    let proceed (stack : List Value) (globals : Globals) : Outcome × List Event :=
      let (outcome, events) := x.interpret limit depth constants locals (ip + 1) stack globals rest
      (outcome, event :: events)
    match i with
    | .pushConst index =>
      match constants[index]? with
      | some value => proceed (value :: stack) globals
      | none => failed (.invalidConstant index)
    | .loadVar name =>
      match (locals.get? name).or (globals.get? name) with
      | some value => proceed (value :: stack) globals
      | none => failed (.undefinedVariable name)
    | .storeVar name =>
      match stack with
      | value :: below => proceed below (globals.insert name value)
      | [] => failed .stackUnderflow
    | .loadLocal name =>
      match locals.get? name with
      | some value => proceed (value :: stack) globals
      | none => failed (.undefinedLocal name)
    | .pop =>
      match stack with
      | _ :: below => proceed below globals
      | [] => failed .stackUnderflow
    | .apply op =>
      match stack with
      | right :: left :: below =>
        match left.apply op right with
        | .ok value => proceed (value :: below) globals
        | .error operation => failed (.overflow operation)
      | _ => failed .stackUnderflow
    | .call name argc =>
      match x.functions.get? name with
      | none => failed (.undefinedFunction name)
      | some code =>
        if argc ≠ code.params.length then failed (.arityMismatch name code.params.length argc)
        else if limit < depth + 1 then failed (.recursionLimit limit)
        else if stack.length < argc then failed .stackUnderflow
        else
          let args := (stack.take argc).reverse
          let (outcome, events) := x.interpret limit (depth + 1) code.constants
            (.ofPairs (code.params.zip args)) 0 [] globals code.instructions.toList
          match outcome.result with
          | .error e => (⟨.error e, outcome.globals⟩, event :: events)
          | .ok none => (⟨.error (.missingReturnValue name), outcome.globals⟩, event :: events)
          | .ok (some value) =>
            let (final, later) := x.interpret limit depth constants locals (ip + 1)
              (value :: stack.drop argc) outcome.globals rest
            (final, event :: (events ++ later))
    | .ret => (⟨.ok stack.head?, globals⟩, [event])
termination_by instructions => (limit - depth, instructions.length)
decreasing_by
  · apply Prod.Lex.right; exact Nat.lt_succ_self _
  · apply Prod.Lex.left; omega
  · apply Prod.Lex.right; exact Nat.lt_succ_self _

def Executable.interpretMain (x : Executable) (limit : Nat) : Outcome × List Event :=
  x.interpret limit 0 x.main.constants .empty 0 [] .empty x.main.instructions.toList

end CalcLang
