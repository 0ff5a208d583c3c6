import CalcLang.Code.Compile
import CalcLang.Proofs.Basic

/-! Compiled code as a function of the tree. An expression in which only names are called
always has code, and its code depends on the literals before it through the pool alone. The
pool only grows at its end, so a slot keeps its value until the code object is finished. -/
namespace CalcLang

abbrev Pool := List Value

namespace Pool

def slot (pool : Pool) (value : Value) : Nat := pool.findIdx (·.agrees value)

def represent (pool : Pool) (value : Value) : Value := (pool.find? (·.agrees value)).getD value

def add (pool : Pool) (value : Value) : Pool :=
  if pool.any (·.agrees value) then pool else pool ++ [value]

def grow (pool : Pool) (values : List Value) : Pool := values.foldl add pool

@[simp] theorem growNil (pool : Pool) : pool.grow [] = pool := rfl

@[simp] theorem growSingle (pool : Pool) (value : Value) : pool.grow [value] = pool.add value := rfl

@[simp] theorem growAppend (pool : Pool) (first others : List Value) :
    pool.grow (first ++ others) = (pool.grow first).grow others := List.foldl_append

theorem prefixAdd (pool : Pool) (value : Value) : pool <+: pool.add value := by
  unfold add
  split
  · exact List.prefix_refl pool
  · exact List.prefix_append pool [value]

theorem prefixGrow (pool : Pool) (values : List Value) : pool <+: pool.grow values := by
  induction values generalizing pool with
  | nil => exact List.prefix_refl pool
  | cons value rest ih => exact (prefixAdd pool value).trans (ih (pool.add value))

theorem memAdd {pool : Pool} {value v : Value} (mem : v ∈ pool.add value) : v ∈ pool ∨ v = value := by
  unfold add at mem
  split at mem
  · exact .inl mem
  · simpa using mem

theorem memGrow {pool : Pool} {values : List Value} {v : Value} (mem : v ∈ pool.grow values) :
    v ∈ pool ∨ v ∈ values := by
  induction values generalizing pool with
  | nil => exact .inl mem
  | cons value rest ih =>
    rcases ih mem with before | after
    · rcases memAdd before with old | rfl
      · exact .inl old
      · exact .inr List.mem_cons_self
    · exact .inr (List.mem_cons_of_mem _ after)

theorem slotHolds {pool final : Pool} {value : Value} (kept : pool.add value <+: final) :
    final[pool.slot value]? = some (pool.represent value) := by
  obtain ⟨more, rfl⟩ := kept
  cases found : pool.find? (·.agrees value) with
  | some w =>
    have agrees := List.find?_some found
    have known : pool.any (·.agrees value) = true := by
      rw [List.any_eq_true]
      exact ⟨w, List.mem_of_find?_eq_some found, agrees⟩
    have here : pool[pool.slot value]? = some w := by
      rw [slot, ← List.find?_eq_getElem?_findIdx, found]
    obtain ⟨inside, _⟩ := List.getElem?_eq_some_iff.mp here
    rw [add, if_pos known, List.getElem?_append_left inside, here, represent, found, Option.getD_some]
  | none =>
    have unknown : ¬ pool.any (·.agrees value) = true := by
      rw [List.any_eq_true]
      rintro ⟨w, mem, agrees⟩
      exact List.find?_eq_none.mp found w mem agrees
    have behind : pool.slot value = pool.length := by
      rw [slot, List.findIdx_eq_length]
      intro w mem
      simpa using List.find?_eq_none.mp found w mem
    rw [add, if_neg unknown, behind, represent, found]
    simp

end Pool

namespace Draft

def ofLists (is : List Instruction) (pool : Pool) : Draft := ⟨is.toArray, pool.toArray⟩

@[simp] theorem pushOfLists (is : List Instruction) (pool : Pool) (i : Instruction) :
    (ofLists is pool).push i = ofLists (is ++ [i]) pool := by
  simp [ofLists, push]

@[simp] theorem literalOfLists (is : List Instruction) (pool : Pool) (value : Value) :
    (ofLists is pool).literal value =
      ofLists (is ++ [.pushConst (pool.slot value)]) (pool.add value) := by
  cases found : pool.findIdx? (·.agrees value) with
  | some index =>
    obtain ⟨inside, same⟩ := List.findIdx?_eq_some_iff_findIdx_eq.mp found
    have known : pool.any (·.agrees value) = true := by
      rw [List.any_eq_true, ← List.findIdx_lt_length]
      omega
    simp [literal, ofLists, push, found, Pool.add, Pool.slot, known, same]
  | none =>
    have behind := List.findIdx?_eq_none_iff_findIdx_eq.mp found
    have unknown : ¬ pool.any (·.agrees value) = true := by
      rw [List.any_eq_true, ← List.findIdx_lt_length]
      omega
    simp [literal, ofLists, push, found, Pool.add, Pool.slot, unknown, behind]

end Draft

namespace Expr

mutual

def literals : Expr → List Value
  | number value => [value]
  | var _ => []
  | binary _ left right => left.literals ++ right.literals
  | call callee args => callee.literals ++ literalsOf args

def literalsOf : List Expr → List Value
  | [] => []
  | e :: rest => e.literals ++ literalsOf rest

end

theorem memLiteralsOf {args : List Expr} {v : Value} :
    v ∈ literalsOf args ↔ ∃ arg ∈ args, v ∈ arg.literals := by
  induction args with
  | nil => simp [literalsOf]
  | cons e rest ih => simp [literalsOf, ih]

mutual

def code (params : List String) (pool : Pool) : Expr → List Instruction
  | number value => [.pushConst (pool.slot value)]
  | var name => [if name ∈ params then .loadLocal name else .loadVar name]
  | binary op left right =>
    left.code params pool ++ right.code params (pool.grow left.literals) ++ [.apply op]
  | call callee args =>
    codeOf params (pool.grow callee.literals) args ++ [.call (callee.name?.getD "") args.length]

def codeOf (params : List String) (pool : Pool) : List Expr → List Instruction
  | [] => []
  | e :: rest => e.code params pool ++ codeOf params (pool.grow e.literals) rest

end

theorem emitAllNamed {params : List String} {args : List Expr}
    (each : ∀ arg ∈ args, ∀ is pool, arg.emit params (.ofLists is pool) =
      .ok (.ofLists (is ++ arg.code params pool) (pool.grow arg.literals)))
    (is : List Instruction) (pool : Pool) :
    emitAll params args (.ofLists is pool) =
      .ok (.ofLists (is ++ codeOf params pool args) (pool.grow (literalsOf args))) := by
  induction args generalizing is pool with
  | nil => simp [emitAll, codeOf, literalsOf]
  | cons e rest ih =>
    have first := each e List.mem_cons_self is pool
    have others := ih (fun arg mem => each arg (List.mem_cons_of_mem _ mem))
    simp only [emitAll, first, bind, Except.bind, others, codeOf, literalsOf, Pool.growAppend,
      List.append_assoc]

theorem emitNamed {e : Expr} (named : e.Named) (params : List String) (is : List Instruction)
    (pool : Pool) :
    e.emit params (.ofLists is pool) =
      .ok (.ofLists (is ++ e.code params pool) (pool.grow e.literals)) := by
  induction e generalizing is pool with
  | number value => simp [emit, code, literals]
  | var name => simp [emit, code, literals]
  | binary op left right ihLeft ihRight =>
    obtain ⟨namedLeft, namedRight⟩ := eachCallBinary.mp named
    simp only [emit, ihLeft namedLeft, bind, Except.bind, ihRight namedRight, Draft.pushOfLists,
      code, literals, Pool.growAppend, List.append_assoc]
  | call callee args _ ih =>
    obtain ⟨⟨name, rfl⟩, namedArgs⟩ := namedCall.mp named
    have all := emitAllNamed (fun arg mem => ih arg mem (namedArgs arg mem)) is pool
    simp only [emit, all, bind, Except.bind, Draft.pushOfLists, code, literals, List.nil_append,
      Pool.growNil, List.append_assoc, name?, Option.getD_some]

theorem namedOfEmitAll {params : List String} {args : List Expr}
    (each : ∀ arg ∈ args, ∀ d after, arg.emit params d = .ok after → arg.Named) {d after : Draft}
    (done : emitAll params args d = .ok after) : ∀ arg ∈ args, arg.Named := by
  induction args generalizing d with
  | nil => simp
  | cons e rest ih =>
    rw [emitAll] at done
    obtain ⟨between, first, others⟩ := bindOk done
    intro arg mem
    rcases List.mem_cons.mp mem with rfl | mem
    · exact each arg List.mem_cons_self d between first
    · exact ih (fun arg mem => each arg (List.mem_cons_of_mem _ mem)) others arg mem

theorem namedOfEmit {params : List String} {e : Expr} {d after : Draft}
    (done : e.emit params d = .ok after) : e.Named := by
  induction e generalizing d after with
  | number value => exact eachCallNumber value
  | var name => exact eachCallVar name
  | binary op left right ihLeft ihRight =>
    rw [emit] at done
    obtain ⟨between, first, rest⟩ := bindOk done
    obtain ⟨last, second, _⟩ := bindOk rest
    exact eachCallBinary.mpr ⟨ihLeft first, ihRight second⟩
  | call callee args _ ih =>
    cases callee with
    | var name =>
      rw [emit] at done
      obtain ⟨between, all, _⟩ := bindOk done
      exact namedCall.mpr ⟨⟨name, rfl⟩, namedOfEmitAll (fun arg mem _ _ => ih arg mem) all⟩
    | number value => simp [emit] at done
    | binary op left right => simp [emit] at done
    | call inner others => simp [emit] at done

end Expr

def Definition.lowered (d : Definition) : CodeObject :=
  ⟨d.params, (d.body.code d.params [] ++ [Instruction.ret]).toArray, (Pool.grow [] d.body.literals).toArray⟩

def Statement.topLiterals : Statement → List Value
  | define .. => []
  | assign _ value => value.literals
  | eval expr => expr.literals

def Statement.topCode (pool : Pool) : Statement → List Instruction
  | define .. => []
  | assign name value => value.code [] pool ++ [.storeVar name]
  | eval expr => expr.code [] pool ++ [.pop]

def topCode (pool : Pool) : List Statement → List Instruction
  | [] => []
  | s :: rest => s.topCode pool ++ topCode (pool.grow s.topLiterals) rest

namespace Program

structure Lowerable (p : Program) : Prop where
  functions : (p.definitions.map Definition.name).Nodup
  calls : ∀ s ∈ p.statements, s.expr.Named

def topLiterals (p : Program) : List Value := p.statements.flatMap Statement.topLiterals

def lowered (p : Program) : Executable :=
  ⟨⟨[], (topCode [] p.statements ++ [Instruction.ret]).toArray, (Pool.grow [] p.topLiterals).toArray⟩,
    .ofPairs (p.definitions.map fun d => (d.name, d.lowered))⟩

end Program

theorem compileBodyNamed (name : String) (params : List String) {body : Expr} (named : body.Named) :
    compileBody params body = .ok (Definition.lowered ⟨name, params, body⟩) := by
  have emitted := Expr.emitNamed named params [] []
  have start : Draft.ofLists [] [] = .empty := rfl
  rw [start] at emitted
  simp only [compileBody, emitted, bind, Except.bind, Draft.finish, Draft.ofLists, List.nil_append,
    List.push_toArray, Definition.lowered]

theorem namedOfCompileBody {params : List String} {body : Expr} {code : CodeObject}
    (done : compileBody params body = .ok code) : body.Named := by
  obtain ⟨d, emitted, _⟩ := bindOk done
  exact Expr.namedOfEmit emitted

theorem compileFunctionsNamed {statements : List Statement} {table : Bindings CodeObject}
    (fresh : table.Fresh ((Program.mk statements).definitions.map Definition.name))
    (named : ∀ d ∈ (Program.mk statements).definitions, d.body.Named) :
    compileFunctions table statements =
      .ok (table.insertAll ((Program.mk statements).definitions.map fun d => (d.name, d.lowered))) := by
  induction statements generalizing table with
  | nil => rfl
  | cons s rest ih =>
    cases s with
    | assign name value => exact ih fresh named
    | eval expr => exact ih fresh named
    | define name params body =>
      rw [Program.definitionsDefine] at fresh named ⊢
      have compiled := compileBodyNamed name params (named _ List.mem_cons_self)
      obtain ⟨absent, later⟩ := (Bindings.freshCons (Definition.lowered ⟨name, params, body⟩)).mp fresh
      rw [compileFunctions, absent, compiled]
      exact ih later (fun d mem => named d (List.mem_cons_of_mem _ mem))

theorem namedOfCompileFunctions {statements : List Statement} {table result : Bindings CodeObject}
    (done : compileFunctions table statements = .ok result) :
    table.Fresh ((Program.mk statements).definitions.map Definition.name) ∧
      ∀ d ∈ (Program.mk statements).definitions, d.body.Named := by
  induction statements generalizing table with
  | nil => simp [Bindings.Fresh]
  | cons s rest ih =>
    cases s with
    | assign name value => exact ih done
    | eval expr => exact ih done
    | define name params body =>
      rw [Program.definitionsDefine]
      rw [compileFunctions] at done
      split at done
      · cases done
      · rename_i absent
        obtain ⟨code, compiled, others⟩ := bindOk done
        obtain ⟨later, named⟩ := ih others
        refine ⟨(Bindings.freshCons code).mpr ⟨by simpa using absent, later⟩, fun d mem => ?_⟩
        rcases List.mem_cons.mp mem with rfl | mem
        · exact namedOfCompileBody compiled
        · exact named d mem

theorem emitStatementsNamed {statements : List Statement} (named : ∀ s ∈ statements, s.expr.Named)
    (is : List Instruction) (pool : Pool) :
    emitStatements statements (.ofLists is pool) =
      .ok (.ofLists (is ++ topCode pool statements)
        (pool.grow (statements.flatMap Statement.topLiterals))) := by
  induction statements generalizing is pool with
  | nil => simp [emitStatements, topCode]
  | cons s rest ih =>
    have first := named s List.mem_cons_self
    have others := ih (fun s mem => named s (List.mem_cons_of_mem _ mem))
    cases s with
    | define name params body =>
      simp only [emitStatements, others, topCode, Statement.topCode, List.flatMap_cons,
        Statement.topLiterals, List.nil_append, Pool.growNil]
    | assign name value =>
      have emitted := Expr.emitNamed (e := value) first [] is pool
      simp only [emitStatements, emitted, bind, Except.bind, Draft.pushOfLists, others,
        topCode, Statement.topCode, List.flatMap_cons, Statement.topLiterals, Pool.growAppend,
        List.append_assoc]
    | eval expr =>
      have emitted := Expr.emitNamed (e := expr) first [] is pool
      simp only [emitStatements, emitted, bind, Except.bind, Draft.pushOfLists, others,
        topCode, Statement.topCode, List.flatMap_cons, Statement.topLiterals, Pool.growAppend,
        List.append_assoc]

theorem namedOfEmitStatements {statements : List Statement} {d after : Draft}
    (done : emitStatements statements d = .ok after) :
    ∀ s ∈ statements, (∃ name params body, s = .define name params body) ∨ s.expr.Named := by
  induction statements generalizing d with
  | nil => simp
  | cons s rest ih =>
    intro t mem
    cases s with
    | define name params body =>
      rcases List.mem_cons.mp mem with rfl | mem
      · exact .inl ⟨name, params, body, rfl⟩
      · exact ih done t mem
    | assign name value =>
      obtain ⟨between, emitted, others⟩ := bindOk done
      rcases List.mem_cons.mp mem with rfl | mem
      · exact .inr (Expr.namedOfEmit emitted)
      · exact ih others t mem
    | eval expr =>
      obtain ⟨between, emitted, others⟩ := bindOk done
      rcases List.mem_cons.mp mem with rfl | mem
      · exact .inr (Expr.namedOfEmit emitted)
      · exact ih others t mem

namespace Program

theorem compileLowerable {p : Program} (able : p.Lowerable) : p.compile = .ok p.lowered := by
  have functions : compileFunctions .empty p.statements = .ok _ :=
    compileFunctionsNamed (Bindings.freshEmpty.mpr able.functions)
      (fun d mem => able.calls _ (memDefinitions.mp mem))
  have main := emitStatementsNamed able.calls [] []
  have start : Draft.ofLists [] [] = .empty := rfl
  rw [start] at main
  simp only [compile, functions, main, bind, Except.bind, Draft.finish, Draft.ofLists,
    List.nil_append, List.push_toArray, lowered, topLiterals]
  rfl

theorem lowerableOfCompile {p : Program} {x : Executable} (done : p.compile = .ok x) :
    p.Lowerable := by
  obtain ⟨functions, compiled, rest⟩ := bindOk done
  obtain ⟨main, emitted, _⟩ := bindOk rest
  obtain ⟨fresh, named⟩ := namedOfCompileFunctions compiled
  refine ⟨Bindings.freshEmpty.mp fresh, fun s mem => ?_⟩
  rcases namedOfEmitStatements emitted s mem with ⟨name, params, body, rfl⟩ | direct
  · exact named ⟨name, params, body⟩ (memDefinitions.mpr mem)
  · exact direct

theorem loweredOfCompile {p : Program} {x : Executable} (done : p.compile = .ok x) :
    x = p.lowered := by
  have same := compileLowerable (lowerableOfCompile done)
  exact Except.ok.inj (done.symm.trans same)

end Program
end CalcLang
