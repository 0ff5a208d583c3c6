import CalcLang.Proofs.Exposure

/-! How deep a program calls. The depth at which a body is evaluated is the length of the chain
of calls that leads to it, and evaluation runs into every call that an expression contains. So
the chains from the top level that are longer than the limit are what a limit is reported for,
and no program that has one runs to its end. -/
namespace CalcLang

namespace Expr

/-- A sequence of functions of which the expression calls the first and the body of each calls
the next. -/
inductive Chain (functions : Bindings Definition) : Expr → List String → Prop
  | last {e name} (called : name ∈ e.called) : Chain functions e [name]
  | next {e name d rest} (called : name ∈ e.called) (found : functions.get? name = some d)
      (inner : Chain functions d.body rest) : Chain functions e (name :: rest)

variable {functions : Bindings Definition} {globals : Globals} {limit depth : Nat}
  {locals : Bindings Value}

theorem Chain.mono {e other : Expr} {names : List String} (chain : Chain functions e names)
    (more : ∀ name ∈ e.called, name ∈ other.called) : Chain functions other names := by
  cases chain with
  | last called => exact .last (more _ called)
  | next called found inner => exact .next (more _ called) found inner

theorem Chain.transfer {others : Bindings Definition}
    (bodies : ∀ name d, functions.get? name = some d →
      ∃ twin, others.get? name = some twin ∧ twin.body.called = d.body.called)
    {e other : Expr} (same : other.called = e.called) {names : List String}
    (chain : Chain functions e names) : Chain others other names := by
  induction chain generalizing other with
  | last called => exact .last (same ▸ called)
  | next called found inner ih =>
    obtain ⟨twin, found, twinCalled⟩ := bodies _ _ found
    exact .next (same ▸ called) found (ih twinCalled)

theorem chainReturned {e : Expr} {names : List String} (chain : Chain functions e names) {v : Value}
    (done : e.evaluate functions globals limit depth locals = .ok v) :
    depth + names.length ≤ limit := by
  induction chain generalizing depth locals v with
  | last called =>
    obtain ⟨d, values, w, _, _, shallow, _⟩ := calledOk done called
    exact shallow
  | next called found inner ih =>
    obtain ⟨d, values, w, here, _, _, returned⟩ := calledOk done called
    cases found.symm.trans here
    have deeper := ih returned
    rw [List.length_cons]
    omega

theorem limitChain {e : Expr} {reported : Nat} (within : depth ≤ limit)
    (failed : e.evaluate functions globals limit depth locals = .error (.recursionLimit reported)) :
    reported = limit ∧ ∃ names, Chain functions e names ∧ depth + names.length = limit + 1 := by
  induction depth, e using inductionByDepth functions limit generalizing locals with
  | number depth value =>
    rw [evaluate] at failed
    cases failed
  | var depth name =>
    obtain ⟨_, _, other⟩ := varError failed
    cases other
  | binary depth op left right ihLeft ihRight =>
    rcases binaryError failed with first | second | ⟨o, other⟩
    · obtain ⟨same, names, chain, length⟩ := ihLeft within first
      exact ⟨same, names, chain.mono fun n called => memCalledBinary.mpr (.inl called), length⟩
    · obtain ⟨same, names, chain, length⟩ := ihRight within second
      exact ⟨same, names, chain.mono fun n called => memCalledBinary.mpr (.inr called), length⟩
    · cases other
  | call depth callee args ih deeper =>
    obtain ⟨callee, rfl⟩ := calleeNamed failed (by simp)
    rcases callError failed with ⟨arg, mem, early⟩ | ⟨_, other⟩ | ⟨d, found, late⟩
    · obtain ⟨same, names, chain, length⟩ := ih arg mem within early
      exact ⟨same, names, chain.mono fun n called => memCalledCall.mpr (.inr ⟨arg, mem, called⟩), length⟩
    · cases other
    · have here : callee ∈ (call (var callee) args).called := memCalledCall.mpr (.inl rfl)
      rcases late with ⟨_, other⟩ | ⟨_, deep, own⟩ | ⟨values, _, _, shallow, inner⟩
      · cases other
      · -- the call itself is one too deep, and it is made exactly at the limit
        cases own
        exact ⟨rfl, [callee], .last here, by rw [List.length_singleton]; omega⟩
      · obtain ⟨same, names, chain, length⟩ := deeper callee d found shallow shallow inner
        exact ⟨same, callee :: names, .next here found chain, by rw [List.length_cons]; omega⟩

theorem Reaches.extend {e : Expr} {d : Definition} {names : List String}
    (reaches : Reaches functions e d) (chain : Chain functions d.body names) :
    ∃ longer, Chain functions e longer ∧ names.length < longer.length := by
  induction reaches with
  | direct called found => exact ⟨_ :: names, .next called found chain, Nat.lt_succ_self _⟩
  | through called found inner ih =>
    obtain ⟨longer, rest, more⟩ := ih chain
    exact ⟨_ :: longer, .next called found rest, Nat.lt_succ_of_lt more⟩

theorem Reaches.chain {e : Expr} {d : Definition} (reaches : Reaches functions e d) :
    ∃ names, Chain functions e names := by
  cases reaches with
  | direct called found => exact ⟨_, .last called⟩
  | through called found inner => exact ⟨_, .last called⟩

theorem recursiveChain {d : Definition} (again : Reaches functions d.body d) (n : Nat) :
    ∃ names, Chain functions d.body names ∧ n ≤ names.length := by
  induction n with
  | zero =>
    obtain ⟨names, chain⟩ := again.chain
    exact ⟨names, chain, Nat.zero_le _⟩
  | succ n ih =>
    obtain ⟨names, chain, long⟩ := ih
    obtain ⟨longer, chain, more⟩ := again.extend chain
    exact ⟨longer, chain, by omega⟩

end Expr

namespace Program

theorem pooledChain {p : Program} {e other : Expr} (same : other.called = e.called)
    {names : List String} : other.Chain p.pooled.functions names ↔ e.Chain p.functions names := by
  constructor
  · refine Expr.Chain.transfer (fun name d found => ?_) same.symm
    rw [pooledFunction, Option.map_eq_some_iff] at found
    obtain ⟨original, found, rfl⟩ := found
    exact ⟨original, found, (Expr.pooledCalled [] original.body).symm⟩
  · refine Expr.Chain.transfer (fun name d found => ?_) same
    exact ⟨d.pooled, by rw [pooledFunction, found, Option.map_some], Expr.pooledCalled [] d.body⟩

def tops (p : Program) : List Expr := p.statements.filterMap Statement.top?

def HasChain (p : Program) (n : Nat) : Prop :=
  ∃ e ∈ p.tops, ∃ names, e.Chain p.functions names ∧ names.length = n

theorem chainBounded {p : Program} {limit : Nat} {value : Option Value}
    (done : (p.pooled.evaluate limit).result = .ok value) {e : Expr} (top : e ∈ p.tops)
    {names : List String} (chain : e.Chain p.functions names) : names.length ≤ limit := by
  obtain ⟨s, mem, top⟩ := List.mem_filterMap.mp top
  obtain ⟨before, after, split⟩ := List.append_of_mem mem
  obtain ⟨pool, middle, v, _, evaluated⟩ := topReturned done split top
  have bounded := Expr.chainReturned ((pooledChain (Expr.pooledCalled pool e)).mpr chain) evaluated
  omega

theorem limitHasChain {p : Program} {limit reported : Nat}
    (failed : (p.pooled.evaluate limit).result = .error (.recursionLimit reported)) :
    reported = limit ∧ p.HasChain (limit + 1) := by
  obtain ⟨before, s, after, e, pool, middle, split, top, _, failed⟩ := topFailed failed
  obtain ⟨same, names, chain, length⟩ := Expr.limitChain (Nat.zero_le limit) failed
  have mem : s ∈ p.statements := by rw [split]; simp
  refine ⟨same, e, List.mem_filterMap.mpr ⟨s, mem, top⟩, names, ?_, by omega⟩
  exact (pooledChain (Expr.pooledCalled pool e)).mp chain

theorem recursiveStuck {p : Program} {limit : Nat} {before after : List Statement} {s : Statement}
    {e : Expr} {d : Definition} (split : p.statements = before ++ s :: after) (top : s.top? = some e)
    (reaches : e.Reaches p.functions d) (again : d.body.Reaches p.functions d) :
    ∃ error, (p.pooled.evaluate limit).result = .error error ∧
      ∀ name, ((p.pooled.evaluate limit).globals.get? name).isSome →
        ∃ value, .assign name value ∈ before := by
  obtain ⟨names, chain, long⟩ := Expr.recursiveChain again limit
  obtain ⟨longer, chain, more⟩ := reaches.extend chain
  have stuck (pool : Pool) (middle : Globals) :
      ∃ error, (s.pooled pool).effect p.pooled.functions limit middle = .error error := by
    cases ran : (s.pooled pool).effect p.pooled.functions limit middle with
    | error error => exact ⟨error, rfl⟩
    | ok next =>
      obtain ⟨v, evaluated⟩ := Statement.effectOk ran (by rw [Statement.pooledTop, top]; rfl)
      have bounded := Expr.chainReturned ((pooledChain (Expr.pooledCalled pool e)).mpr chain) evaluated
      omega
  have whole : p.pooled.evaluate limit = evaluateStatements p.pooled.functions limit .empty
      (pooledStatements [] (before ++ s :: after)) := by rw [← split]; rfl
  rw [pooledStatementsAppend, pooledStatements] at whole
  obtain ⟨error, failed⟩ := evaluateStatementsStuck (stuck _)
  rw [whole, failed]
  refine ⟨error, rfl, fun name set => ?_⟩
  rcases evaluateStatementsSet set with initial | assigned
  · cases initial
  · exact pooledAssigns.mp assigned

end Program

theorem recursionLimitIsChain {p : Program} (accepted : p.check = .ok ()) :
    ∃ x, p.compile = .ok x ∧ ∀ limit,
      (∀ value, (x.run limit).result = .ok value → ¬ p.HasChain (limit + 1)) ∧
      (∀ reported, (x.run limit).result = .error (.recursionLimit reported) →
        reported = limit ∧ p.HasChain (limit + 1)) ∧
      ∀ before s after e d, p.statements = before ++ s :: after → s.top? = some e →
        e.Reaches p.functions d → d.body.Reaches p.functions d →
        ∃ error, (x.run limit).result = .error error ∧
          ∀ name, ((x.run limit).globals.get? name).isSome → ∃ value, .assign name value ∈ before := by
  have compiled := Program.compileLowerable (Program.lowerableOfCheck accepted)
  refine ⟨p.lowered, compiled, fun limit => ?_⟩
  rw [Program.runPooled compiled]
  refine ⟨fun value done chained => ?_, fun reported failed => Program.limitHasChain failed,
    fun before s after e d split top => Program.recursiveStuck split top⟩
  obtain ⟨e, top, names, chain, length⟩ := chained
  have bounded := Program.chainBounded done top chain
  omega

theorem recursionLimitIsChainNested :
    nestedCalls.check = .ok () ∧ nestedCalls.HasChain 2 ∧ ¬ nestedCalls.HasChain 3 ∧
      endlessCall.check = .ok () ∧
        ∀ limit, ∃ error, (endlessCall.lowered.run limit).result = .error error := by
  have nested : nestedCalls.check = .ok () := by decide
  have endless : endlessCall.check = .ok () := by decide
  obtain ⟨x, compiled, finite⟩ := recursionLimitIsChain nested
  obtain rfl := Program.loweredOfCompile compiled
  obtain ⟨y, compiled, stuck⟩ := recursionLimitIsChain endless
  obtain rfl := Program.loweredOfCompile compiled
  have found := Program.definedFunction (p := endlessCall) (by decide) List.mem_cons_self
  refine ⟨nested, ((finite 1).2.1 1 (by decide +kernel)).2, (finite 2).1 none (by decide +kernel),
    endless, fun limit => ?_⟩
  obtain ⟨error, failed, _⟩ := (stuck limit).2.2 [_] _ [] _ _ rfl rfl (.direct (by decide) found)
    (.direct (by decide) found)
  exact ⟨error, failed⟩

end CalcLang
