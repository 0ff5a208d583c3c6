import CalcLang.Proofs.Checking
import CalcLang.Proofs.Meaning

/-! What the checks promise about runs. Calls always fit, so an accepted program compiles and
its code never lacks an operand, a function or a constant. Variables are another matter: the
checks read a body where it stands and a run where it is called. -/
namespace CalcLang

namespace Expr

theorem pooledCheckAll {signatures : Signatures} {scope : List String} {args : List Expr}
    (each : ∀ arg ∈ args, ∀ pool, (arg.pooled pool).check signatures scope = arg.check signatures scope)
    (pool : Pool) :
    checkAll signatures scope (pooledOf pool args) = checkAll signatures scope args := by
  induction args generalizing pool with
  | nil => rfl
  | cons e rest ih =>
    rw [pooledOf, checkAll, checkAll, each e List.mem_cons_self,
      ih fun arg mem => each arg (List.mem_cons_of_mem _ mem)]

theorem pooledCheck {signatures : Signatures} {scope : List String} (pool : Pool) (e : Expr) :
    (e.pooled pool).check signatures scope = e.check signatures scope := by
  induction e generalizing pool with
  | number value => rfl
  | var name => rfl
  | binary op left right ihLeft ihRight => rw [pooled, check, check, ihLeft, ihRight]
  | call callee args _ ih =>
    rw [pooled]
    cases callee with
    | var name => simp only [check, pooledOfLength, pooledCheckAll ih]
    | number value => simp only [check]
    | binary op left right => simp only [check]
    | call inner others => simp only [check]

end Expr

theorem pooledCollect (pool : Pool) (known : Signatures) (statements : List Statement) :
    Signatures.collect known (pooledStatements pool statements) =
      Signatures.collect known statements := by
  induction statements generalizing pool known with
  | nil => rfl
  | cons s rest ih => cases s <;> simp only [pooledStatements, Statement.pooled, Signatures.collect, ih]

theorem pooledCheckStatements {signatures : Signatures} (pool : Pool) (globals : List String)
    (statements : List Statement) :
    checkStatements signatures globals (pooledStatements pool statements) =
      checkStatements signatures globals statements := by
  induction statements generalizing pool globals with
  | nil => rfl
  | cons s rest ih => cases s <;> simp only [pooledStatements, Statement.pooled, checkStatements, Expr.pooledCheck, ih]

theorem Program.pooledCheck (p : Program) : p.pooled.check = p.check := by
  simp only [check, pooled, pooledCollect, pooledCheckStatements]

inductive RunError.Residual (limit : Nat) : RunError → Prop
  | overflow (operation : Overflow) : Residual limit (.overflow operation)
  | recursionLimit : Residual limit (.recursionLimit limit)
  | undefinedVariable (name : String) : Residual limit (.undefinedVariable name)

namespace Expr

def Callable (functions : Bindings Definition) (e : Expr) : Prop :=
  e.EachCall fun callee args =>
    ∃ name d, callee = .var name ∧ functions.get? name = some d ∧ d.params.length = args.length

theorem Callable.named {functions : Bindings Definition} {e : Expr} (callable : e.Callable functions) :
    e.Named := by
  refine EachCall.mono callable ?_
  rintro callee args ⟨name, d, same, _⟩
  exact ⟨name, same⟩

theorem evaluateResidual {functions : Bindings Definition} {globals : Globals} {limit depth : Nat}
    {locals : Bindings Value}
    (bodies : ∀ name d, functions.get? name = some d → d.body.Callable functions) {e : Expr}
    (callable : e.Callable functions) {error : RunError}
    (failed : e.evaluate functions globals limit depth locals = .error error) :
    error.Residual limit := by
  induction depth, e using inductionByDepth functions limit generalizing locals with
  | number depth value =>
    rw [evaluate] at failed
    cases failed
  | var depth name =>
    obtain ⟨_, _, rfl⟩ := varError failed
    exact .undefinedVariable name
  | binary depth op left right ihLeft ihRight =>
    obtain ⟨callableLeft, callableRight⟩ := eachCallBinary.mp callable
    rcases binaryError failed with first | second | ⟨o, rfl⟩
    · exact ihLeft callableLeft first
    · exact ihRight callableRight second
    · exact .overflow o
  | call depth callee args ih deeper =>
    obtain ⟨⟨name, d, rfl, found, arity⟩, _, callableArgs⟩ := eachCallCall.mp callable
    rcases callError failed with ⟨arg, mem, early⟩ | ⟨absent, _⟩ | ⟨e, here, late⟩
    · exact ih arg mem (callableArgs arg mem) early
    · cases found.symm.trans absent
    · cases found.symm.trans here
      rcases late with ⟨different, _⟩ | ⟨_, _, rfl⟩ | ⟨values, _, _, shallow, inner⟩
      · exact absurd arity.symm different
      · exact .recursionLimit
      · exact deeper name d found shallow (bodies name d found) inner

end Expr

namespace Program

theorem bodiesCallable {p : Program} (accepted : p.check = .ok ()) (name : String) (d : Definition)
    (found : p.functions.get? name = some d) : d.body.Callable p.functions :=
  callsFit accepted (memDefinitions.mp (functionDefined found).1)

theorem lowerableOfCheck {p : Program} (accepted : p.check = .ok ()) : p.Lowerable := by
  refine ⟨(checkedProgram.mp accepted).1, fun s mem => ?_⟩
  exact Expr.Callable.named (callsFit accepted mem)

theorem compileChecked {p : Program} (accepted : p.check = .ok ()) : p.compile = .ok p.lowered :=
  compileLowerable (lowerableOfCheck accepted)

theorem evaluateChecked {p : Program} (accepted : p.check = .ok ()) (limit : Nat) :
    (p.evaluate limit).result = .ok none ∨
      ∃ e, (p.evaluate limit).result = .error e ∧ e.Residual limit := by
  cases ended : (p.evaluate limit).result with
  | ok value => exact .inl (by rw [evaluateStatementsValue ended])
  | error e =>
    obtain ⟨before, s, after, middle, split, _, failed⟩ := evaluateStatementsError ended
    obtain ⟨expr, top, failed⟩ := Statement.effectError failed
    have callable : s.expr.Callable p.functions := callsFit accepted (by rw [split]; simp)
    have same : expr = s.expr := by cases s <;> cases top <;> rfl
    subst same
    exact .inr ⟨e, rfl, Expr.evaluateResidual (bodiesCallable accepted) callable failed⟩

end Program

theorem checkedRunsSafely {p : Program} (accepted : p.check = .ok ()) :
    ∃ x, p.compile = .ok x ∧ ∀ limit, (x.run limit).result = .ok none ∨
      ∃ e, (x.run limit).result = .error e ∧ e.Residual limit := by
  have compiled := Program.compileLowerable (Program.lowerableOfCheck accepted)
  refine ⟨p.lowered, compiled, fun limit => ?_⟩
  rw [Program.runPooled compiled]
  exact Program.evaluateChecked (p.pooledCheck.trans accepted) limit

def endlessCall : Program :=
  ⟨[.define "f" ["x"] (.call (.var "f") [.binary .add (.var "x") (.number (.int 1))]),
    .assign "r" (.call (.var "f") [.number (.int 0)])]⟩

theorem checkedRunsSafelyEndless :
    endlessCall.check = .ok () ∧ ∃ x, endlessCall.compile = .ok x ∧
      ∀ limit, (x.run limit).result = .ok none ∨
        ∃ e, (x.run limit).result = .error e ∧ e.Residual limit := by
  have accepted : endlessCall.check = .ok () := by decide
  exact ⟨accepted, checkedRunsSafely accepted⟩

end CalcLang
