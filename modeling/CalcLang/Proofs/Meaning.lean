import CalcLang.Proofs.Evaluation
import CalcLang.Proofs.Frames
import CalcLang.Proofs.Lowering

/-! Compiled code means what its tree means. Code pushes the value that a literal's slot
holds, and slots are shared by literals that agree; so a run is first shown to be the
evaluation of the tree with these values in place of its literals. Where agreeing literals
of one code object are the same, this is the tree itself. -/
namespace CalcLang

open Outcome (follow)

section Instructions

variable {x : Executable} {limit depth : Nat} {constants : Array Value} {locals : Bindings Value}
  {ip : Nat} {stack : List Value} {globals : Globals} {rest : List Instruction}

theorem outcomePush {index : Nat} {v : Value} (held : constants[index]? = some v) :
    (x.interpret limit depth constants locals ip stack globals (.pushConst index :: rest)).1 =
      (x.interpret limit depth constants locals (ip + 1) (v :: stack) globals rest).1 := by
  rw [Executable.interpret.eq_def]
  simp only [held]

theorem outcomeLoadVar (name : String) :
    (x.interpret limit depth constants locals ip stack globals (.loadVar name :: rest)).1 =
      match (locals.get? name).or (globals.get? name) with
      | some v => (x.interpret limit depth constants locals (ip + 1) (v :: stack) globals rest).1
      | none => ⟨.error (.undefinedVariable name), globals⟩ := by
  rw [Executable.interpret.eq_def]
  dsimp only
  cases (locals.get? name).or (globals.get? name) <;> rfl

theorem outcomeLoadLocal {name : String} {v : Value} (held : locals.get? name = some v) :
    (x.interpret limit depth constants locals ip stack globals (.loadLocal name :: rest)).1 =
      (x.interpret limit depth constants locals (ip + 1) (v :: stack) globals rest).1 := by
  rw [Executable.interpret.eq_def]
  simp only [held]

theorem outcomeApply (op : Operator) (left right : Value) :
    (x.interpret limit depth constants locals ip (right :: left :: stack) globals
        (.apply op :: rest)).1 =
      follow globals ((left.apply op right).mapError .overflow) fun v =>
        (x.interpret limit depth constants locals (ip + 1) (v :: stack) globals rest).1 := by
  rw [Executable.interpret.eq_def]
  dsimp only
  cases left.apply op right <;> rfl

theorem outcomeStoreVar (name : String) (v : Value) :
    (x.interpret limit depth constants locals ip (v :: stack) globals (.storeVar name :: rest)).1 =
      (x.interpret limit depth constants locals (ip + 1) stack (globals.insert name v) rest).1 := by
  rw [Executable.interpret.eq_def]

theorem outcomePop (v : Value) :
    (x.interpret limit depth constants locals ip (v :: stack) globals (.pop :: rest)).1 =
      (x.interpret limit depth constants locals (ip + 1) stack globals rest).1 := by
  rw [Executable.interpret.eq_def]

theorem outcomeRet :
    (x.interpret limit depth constants locals ip stack globals (.ret :: rest)).1 =
      ⟨.ok stack.head?, globals⟩ := by
  rw [Executable.interpret.eq_def]

theorem outcomeCall (name : String) (values : List Value) :
    (x.interpret limit depth constants locals ip (values.reverse ++ stack) globals
        (.call name values.length :: rest)).1 =
      match x.functions.get? name with
      | none => ⟨.error (.undefinedFunction name), globals⟩
      | some code =>
        if values.length ≠ code.params.length then
          ⟨.error (.arityMismatch name code.params.length values.length), globals⟩
        else if limit < depth + 1 then ⟨.error (.recursionLimit limit), globals⟩
        else
          let inner := (x.interpret limit (depth + 1) code.constants
            (.ofPairs (code.params.zip values)) 0 [] globals code.instructions.toList).1
          match inner.result with
          | .error e => ⟨.error e, inner.globals⟩
          | .ok none => ⟨.error (.missingReturnValue name), inner.globals⟩
          | .ok (some v) =>
            (x.interpret limit depth constants locals (ip + 1) (v :: stack) inner.globals rest).1 := by
  rw [Executable.interpret.eq_def]
  dsimp only
  cases x.functions.get? name with
  | none => rfl
  | some code =>
    have enough : ¬ (values.reverse ++ stack).length < values.length := by simp
    have taken : ((values.reverse ++ stack).take values.length).reverse = values := by
      rw [List.take_left' (by simp), List.reverse_reverse]
    have left : (values.reverse ++ stack).drop values.length = stack := List.drop_left' (by simp)
    simp only [enough, if_false, taken, left]
    split
    · rfl
    · split
      · rfl
      · generalize x.interpret limit (depth + 1) code.constants (.ofPairs (code.params.zip values)) 0
          [] globals code.instructions.toList = inner
        obtain ⟨⟨result, after⟩, events⟩ := inner
        cases result with
        | error e => rfl
        | ok value => cases value <;> rfl

end Instructions

namespace Expr

mutual

def pooled (pool : Pool) : Expr → Expr
  | number value => number (pool.represent value)
  | var name => var name
  | binary op left right => binary op (left.pooled pool) (right.pooled (pool.grow left.literals))
  | call callee args => call callee (pooledOf (pool.grow callee.literals) args)

def pooledOf (pool : Pool) : List Expr → List Expr
  | [] => []
  | e :: rest => e.pooled pool :: pooledOf (pool.grow e.literals) rest

end

theorem pooledOfMap {α : Type} {f : Expr → α} {args : List Expr}
    (each : ∀ arg ∈ args, ∀ pool, f (arg.pooled pool) = f arg) (pool : Pool) :
    (pooledOf pool args).map f = args.map f := by
  induction args generalizing pool with
  | nil => rfl
  | cons e rest ih =>
    rw [pooledOf, List.map_cons, List.map_cons, each e List.mem_cons_self,
      ih fun arg mem => each arg (List.mem_cons_of_mem _ mem)]

theorem pooledOfLength (pool : Pool) (args : List Expr) : (pooledOf pool args).length = args.length := by
  have units : (pooledOf pool args).map (fun _ => ()) = args.map fun _ => () :=
    pooledOfMap (fun _ _ _ => rfl) pool
  simpa using congrArg List.length units

end Expr

def Definition.pooled (d : Definition) : Definition := { d with body := d.body.pooled [] }

def Statement.pooled (pool : Pool) : Statement → Statement
  | define name params body => define name params (body.pooled [])
  | assign name value => assign name (value.pooled pool)
  | eval expr => eval (expr.pooled pool)

def pooledStatements (pool : Pool) : List Statement → List Statement
  | [] => []
  | s :: rest => s.pooled pool :: pooledStatements (pool.grow s.topLiterals) rest

namespace Program

def pooled (p : Program) : Program := ⟨pooledStatements [] p.statements⟩

theorem pooledDefinitions (pool : Pool) (statements : List Statement) :
    (Program.mk (pooledStatements pool statements)).definitions =
      (Program.mk statements).definitions.map Definition.pooled := by
  induction statements generalizing pool with
  | nil => rfl
  | cons s rest ih =>
    cases s with
    | define name params body => exact congrArg (List.cons _) (ih pool)
    | assign name value => exact ih _
    | eval expr => exact ih _

theorem pooledFunction (p : Program) (name : String) :
    p.pooled.functions.get? name = (p.functions.get? name).map Definition.pooled := by
  have found := Bindings.getOfPairsMap Definition.pooled (p.definitions.map fun d => (d.name, d)) name
  rw [functions, pooled, pooledDefinitions, List.map_map]
  rw [List.map_map] at found
  exact found

theorem loweredFunction (p : Program) (name : String) :
    p.lowered.functions.get? name = (p.functions.get? name).map Definition.lowered := by
  have found := Bindings.getOfPairsMap Definition.lowered (p.definitions.map fun d => (d.name, d)) name
  rw [List.map_map] at found
  exact found

end Program

/-- The code of an expression, run at a call depth, does what evaluating the expression does
and then goes on behind that code with the value on the stack. -/
def Expr.Runs (p : Program) (limit depth : Nat) (params : List String) (e : Expr) : Prop :=
  ∀ (pool : Pool) (constants : Array Value) (locals : Bindings Value) (globals : Globals) (ip : Nat)
    (stack : List Value) (rest : List Instruction),
    pool.grow e.literals <+: constants.toList → (∀ name ∈ params, (locals.get? name).isSome) →
    (p.lowered.interpret limit depth constants locals ip stack globals
        (e.code params pool ++ rest)).1 =
      follow globals ((e.pooled pool).evaluate p.pooled.functions globals limit depth locals) fun v =>
        (p.lowered.interpret limit depth constants locals (ip + (e.code params pool).length)
          (v :: stack) globals rest).1

namespace Expr

variable {p : Program} {limit depth : Nat} {params : List String}

theorem runsNumber (value : Value) : (number value).Runs p limit depth params := by
  intro pool constants locals globals ip stack rest kept bound
  have held := Pool.slotHolds kept
  rw [Array.getElem?_toList] at held
  simp only [code, pooled, evaluate, List.cons_append, List.nil_append, List.length_singleton]
  exact outcomePush held

theorem runsVar (name : String) : (var name).Runs p limit depth params := by
  intro pool constants locals globals ip stack rest kept bound
  simp only [code, pooled, evaluate, List.cons_append, List.nil_append, List.length_singleton]
  split
  · rename_i param
    obtain ⟨v, held⟩ := Option.isSome_iff_exists.mp (bound name param)
    rw [outcomeLoadLocal held, held]
    rfl
  · rw [outcomeLoadVar]
    cases (locals.get? name).or (globals.get? name) <;> rfl

theorem runsBinary {left right : Expr} (op : Operator) (first : left.Runs p limit depth params)
    (second : right.Runs p limit depth params) : (binary op left right).Runs p limit depth params := by
  intro pool constants locals globals ip stack rest kept bound
  rw [literals, Pool.growAppend] at kept
  have keptLeft := (Pool.prefixGrow _ right.literals).trans kept
  simp only [code, pooled, evaluate, List.append_assoc, followBind]
  rw [first pool constants locals globals ip stack _ keptLeft bound]
  congr 1
  funext a
  rw [second _ constants locals globals _ _ _ kept bound]
  congr 1
  funext b
  rw [List.singleton_append, outcomeApply]
  simp only [List.length_append, List.length_singleton, Nat.add_assoc]

theorem runsArguments {args : List Expr} (each : ∀ arg ∈ args, arg.Runs p limit depth params)
    {pool : Pool} {constants : Array Value} {locals : Bindings Value} (globals : Globals) (ip : Nat)
    (stack : List Value) (rest : List Instruction)
    (kept : pool.grow (literalsOf args) <+: constants.toList)
    (bound : ∀ name ∈ params, (locals.get? name).isSome) :
    (p.lowered.interpret limit depth constants locals ip stack globals
        (codeOf params pool args ++ rest)).1 =
      follow globals (evaluateAll p.pooled.functions globals limit depth locals (pooledOf pool args))
        fun values =>
          (p.lowered.interpret limit depth constants locals (ip + (codeOf params pool args).length)
            (values.reverse ++ stack) globals rest).1 := by
  induction args generalizing pool ip stack with
  | nil =>
    simp only [codeOf, pooledOf, evaluateAll, List.nil_append, List.length_nil, Nat.add_zero, follow,
      List.reverse_nil]
  | cons e others ih =>
    -- the finished pool extends the pool behind every argument, so slots stay where they are
    rw [literalsOf, Pool.growAppend] at kept
    have keptFirst := (Pool.prefixGrow _ (literalsOf others)).trans kept
    simp only [codeOf, pooledOf, evaluateAll, List.append_assoc, followBind]
    rw [each e List.mem_cons_self pool constants locals globals ip stack _ keptFirst bound]
    congr 1
    funext v
    rw [ih (fun arg mem => each arg (List.mem_cons_of_mem _ mem)) _ _ kept]
    congr 1
    funext values
    simp only [follow, List.reverse_cons, List.append_assoc, List.singleton_append,
      List.length_append, Nat.add_assoc]

theorem bodyOutcome {d : Definition} (runs : d.body.Runs p limit depth d.params)
    {locals : Bindings Value} (bound : ∀ name ∈ d.params, (locals.get? name).isSome)
    (globals : Globals) :
    (p.lowered.interpret limit depth d.lowered.constants locals 0 [] globals
        d.lowered.instructions.toList).1 =
      ⟨(d.pooled.body.evaluate p.pooled.functions globals limit depth locals).map some, globals⟩ := by
  have held : Pool.grow [] d.body.literals <+: d.lowered.constants.toList := List.prefix_refl _
  have ran := runs [] d.lowered.constants locals globals 0 [] [.ret] held bound
  rw [Definition.lowered]
  refine ran.trans ?_
  simp only [Definition.pooled]
  cases (d.body.pooled []).evaluate p.pooled.functions globals limit depth locals with
  | error e => rfl
  | ok v => exact outcomeRet

theorem runsCall {name : String} {args : List Expr}
    (each : ∀ arg ∈ args, arg.Runs p limit depth params)
    (body : ∀ d, p.functions.get? name = some d → depth < limit →
      d.body.Runs p limit (depth + 1) d.params) :
    (call (var name) args).Runs p limit depth params := by
  intro pool constants locals globals ip stack rest kept bound
  simp only [literals, List.nil_append] at kept
  simp only [code, pooled, literals, Pool.growNil, evaluate, List.append_assoc, name?,
    Option.getD_some, followBind]
  rw [runsArguments each globals ip stack _ kept bound]
  cases evaluated : evaluateAll p.pooled.functions globals limit depth locals (pooledOf pool args) with
  | error e => rfl
  | ok values =>
    have count : values.length = args.length := by
      rw [evaluateAllLength evaluated, pooledOfLength]
    simp only [follow, List.singleton_append]
    rw [← count, outcomeCall, p.loweredFunction, p.pooledFunction, pooledOfLength, ← count]
    cases found : p.functions.get? name with
    | none => rfl
    | some d =>
      simp only [Option.map_some, Definition.lowered, Definition.pooled]
      split
      · rfl
      · rename_i arity
        split
        · rfl
        · rename_i shallow
          have lengths : values.length = d.params.length := by omega
          -- zipping as many values binds exactly the parameters, as the body's code expects
          have inner := bodyOutcome (body d found (by omega))
            (fun name mem => (Bindings.boundOfZip lengths name).mpr mem) globals
          simp only [Definition.lowered, Definition.pooled] at inner
          rw [inner]
          cases (d.body.pooled []).evaluate p.pooled.functions globals limit (depth + 1)
            (.ofPairs (d.params.zip values)) with
          | error e => rfl
          | ok v => simp [Except.map, Nat.add_assoc]

theorem runsNamed (able : p.Lowerable) {e : Expr} (named : e.Named) : e.Runs p limit depth params := by
  induction depth, e using inductionByDepth p.functions limit generalizing params with
  | number depth value => exact runsNumber value
  | var depth name => exact runsVar name
  | binary depth op left right ihLeft ihRight =>
    obtain ⟨namedLeft, namedRight⟩ := eachCallBinary.mp named
    exact runsBinary op (ihLeft namedLeft) (ihRight namedRight)
  | call depth callee args ih deeper =>
    obtain ⟨⟨name, rfl⟩, namedArgs⟩ := namedCall.mp named
    refine runsCall (fun arg mem => ih arg mem (namedArgs arg mem)) fun d found shallow => ?_
    have defined := Program.memDefinitions.mp (Program.functionDefined found).1
    exact deeper name d found shallow (able.calls _ defined)

end Expr

theorem statementOutcome {p : Program} {limit : Nat} (able : p.Lowerable) {s : Statement}
    (named : s.expr.Named) {pool : Pool} {constants : Array Value}
    (kept : pool.grow s.topLiterals <+: constants.toList) (ip : Nat) (globals : Globals)
    (rest : List Instruction) :
    (p.lowered.interpret limit 0 constants .empty ip [] globals (s.topCode pool ++ rest)).1 =
      follow globals ((s.pooled pool).effect p.pooled.functions limit globals) fun after =>
        (p.lowered.interpret limit 0 constants .empty (ip + (s.topCode pool).length) [] after rest).1 := by
  cases s with
  | define name params body => rfl
  | assign name value =>
    have ran : value.Runs p limit 0 [] := Expr.runsNamed able named
    simp only [Statement.topCode, Statement.pooled, Statement.effect, List.append_assoc, followBind]
    rw [ran pool constants .empty globals ip [] _ kept (by simp)]
    congr 1
    funext v
    rw [List.singleton_append, outcomeStoreVar]
    simp only [follow, List.length_append, List.length_singleton, Nat.add_assoc]
  | eval expr =>
    have ran : expr.Runs p limit 0 [] := Expr.runsNamed able named
    simp only [Statement.topCode, Statement.pooled, Statement.effect, List.append_assoc, followBind]
    rw [ran pool constants .empty globals ip [] _ kept (by simp)]
    congr 1
    funext v
    rw [List.singleton_append, outcomePop]
    simp only [follow, List.length_append, List.length_singleton, Nat.add_assoc]

theorem topOutcome {p : Program} {limit : Nat} (able : p.Lowerable) {statements : List Statement}
    (named : ∀ s ∈ statements, s.expr.Named) {pool : Pool} {constants : Array Value}
    (kept : pool.grow (statements.flatMap Statement.topLiterals) <+: constants.toList)
    (ip : Nat) (globals : Globals) :
    (p.lowered.interpret limit 0 constants .empty ip [] globals (topCode pool statements ++ [.ret])).1 =
      evaluateStatements p.pooled.functions limit globals (pooledStatements pool statements) := by
  induction statements generalizing pool ip globals with
  | nil => exact outcomeRet
  | cons s rest ih =>
    rw [List.flatMap_cons, Pool.growAppend] at kept
    have keptFirst := (Pool.prefixGrow _ (rest.flatMap Statement.topLiterals)).trans kept
    rw [topCode, List.append_assoc, pooledStatements, evaluateStatementsCons,
      statementOutcome able (named s List.mem_cons_self) keptFirst]
    congr 1
    funext after
    exact ih (fun t mem => named t (List.mem_cons_of_mem _ mem)) kept _ after

theorem Program.runPooled {p : Program} {x : Executable} (compiled : p.compile = .ok x) (limit : Nat) :
    x.run limit = p.pooled.evaluate limit := by
  have able := lowerableOfCompile compiled
  rw [loweredOfCompile compiled, Executable.runInterpret]
  exact topOutcome able able.calls (List.prefix_refl _) 0 .empty

def Value.Coherent (values : List Value) : Prop :=
  ∀ a ∈ values, ∀ b ∈ values, a.agrees b = true → a = b

instance (values : List Value) : Decidable (Value.Coherent values) :=
  inferInstanceAs (Decidable (∀ a ∈ values, ∀ b ∈ values, a.agrees b = true → a = b))

theorem Value.Coherent.mono {few many : List Value} (coherent : Coherent many)
    (inside : ∀ v ∈ few, v ∈ many) : Coherent few :=
  fun a memA b memB => coherent a (inside a memA) b (inside b memB)

structure Program.CoherentLiterals (p : Program) : Prop where
  bodies : ∀ d ∈ p.definitions, Value.Coherent d.body.literals
  top : Value.Coherent p.topLiterals

theorem Pool.representCoherent {pool : Pool} {value : Value}
    (coherent : Value.Coherent (pool ++ [value])) : pool.represent value = value := by
  rw [represent]
  cases found : pool.find? (·.agrees value) with
  | none => rfl
  | some w =>
    have agrees := List.find?_some found
    have mem := List.mem_of_find?_eq_some found
    exact coherent w (by simp [mem]) value (by simp) agrees

theorem Pool.coherentGrow {pool : Pool} {first others : List Value}
    (coherent : Value.Coherent (pool ++ (first ++ others))) :
    Value.Coherent (pool.grow first ++ others) := by
  refine coherent.mono fun v mem => ?_
  rcases List.mem_append.mp mem with grown | later
  · rcases memGrow grown with old | new <;> simp_all
  · simp [later]

namespace Expr

theorem pooledOfCoherent {args : List Expr}
    (each : ∀ arg ∈ args, ∀ pool : Pool, Value.Coherent (pool ++ arg.literals) → arg.pooled pool = arg)
    {pool : Pool} (coherent : Value.Coherent (pool ++ literalsOf args)) : pooledOf pool args = args := by
  induction args generalizing pool with
  | nil => rfl
  | cons e rest ih =>
    rw [literalsOf] at coherent
    have first := each e List.mem_cons_self pool (coherent.mono (by simp; grind))
    have others := ih (fun arg mem => each arg (List.mem_cons_of_mem _ mem)) (Pool.coherentGrow coherent)
    rw [pooledOf, first, others]

theorem pooledCoherent {e : Expr} {pool : Pool} (coherent : Value.Coherent (pool ++ e.literals)) :
    e.pooled pool = e := by
  induction e generalizing pool with
  | number value => rw [pooled, Pool.representCoherent coherent]
  | var name => rfl
  | binary op left right ihLeft ihRight =>
    rw [literals] at coherent
    rw [pooled, ihLeft (coherent.mono (by simp; grind)), ihRight (Pool.coherentGrow coherent)]
  | call callee args _ ih =>
    rw [literals] at coherent
    rw [pooled, pooledOfCoherent (fun arg mem pool => ih arg mem) (Pool.coherentGrow coherent)]

end Expr

theorem pooledStatementsCoherent {statements : List Statement} {pool : Pool}
    (bodies : ∀ d ∈ (Program.mk statements).definitions, Value.Coherent d.body.literals)
    (top : Value.Coherent (pool ++ statements.flatMap Statement.topLiterals)) :
    pooledStatements pool statements = statements := by
  induction statements generalizing pool with
  | nil => rfl
  | cons s rest ih =>
    rw [List.flatMap_cons] at top
    have later : ∀ d ∈ (Program.mk rest).definitions, d ∈ (Program.mk (s :: rest)).definitions := by
      intro d mem
      exact Program.memDefinitions.mpr (List.mem_cons_of_mem _ (Program.memDefinitions.mp mem))
    have others := ih (fun d mem => bodies d (later d mem)) (Pool.coherentGrow top)
    have first : Value.Coherent (pool ++ s.topLiterals) := top.mono (by simp; grind)
    have same : s.pooled pool = s := by
      cases s with
      | define name params body =>
        have own := bodies ⟨name, params, body⟩ (Program.memDefinitions.mpr List.mem_cons_self)
        rw [Statement.pooled, Expr.pooledCoherent own]
      | assign name value => rw [Statement.pooled, Expr.pooledCoherent first]
      | eval expr => rw [Statement.pooled, Expr.pooledCoherent first]
    rw [pooledStatements, same, others]

theorem Program.pooledCoherent {p : Program} (coherent : p.CoherentLiterals) : p.pooled = p := by
  rw [pooled, pooledStatementsCoherent coherent.bodies coherent.top]

theorem runIsEvaluation {p : Program} {x : Executable} (compiled : p.compile = .ok x)
    (coherent : p.CoherentLiterals) (limit : Nat) :
    x.run limit = p.evaluate limit ∧
      ∀ value, (x.run limit).result = .ok value → value = none := by
  have same : x.run limit = p.evaluate limit := by
    rw [Program.runPooled compiled, Program.pooledCoherent coherent]
  refine ⟨same, fun value done => ?_⟩
  rw [same] at done
  exact evaluateStatementsValue done

def nestedCalls : Program :=
  ⟨[.assign "y" (.number (.int 3)),
    .define "f" ["x"] (.binary .mul (.var "x") (.var "y")),
    .define "g" ["a"] (.binary .sub (.call (.var "f") [.var "a"]) (.call (.var "f") [.number (.int 2)])),
    .assign "z" (.call (.var "g") [.call (.var "f") [.number (.int 1)]])]⟩

theorem runIsEvaluationNested :
    nestedCalls.compile = .ok nestedCalls.lowered ∧ nestedCalls.CoherentLiterals ∧
      nestedCalls.lowered.run 2 = nestedCalls.evaluate 2 ∧
      (nestedCalls.lowered.run 2).globals.get? "z" = some (.int 3) := by
  have compiled : nestedCalls.compile = .ok nestedCalls.lowered := by decide +kernel
  have coherent : nestedCalls.CoherentLiterals := ⟨by decide, by decide⟩
  exact ⟨compiled, coherent, (runIsEvaluation compiled coherent 2).1, by decide +kernel⟩

end CalcLang
