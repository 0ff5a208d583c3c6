import CalcLang.Proofs.Soundness

/-! Variables that a call reads too early. The checks hold a body against the assignments
above its definition, a run against those above the call; a statement that calls a function
defined below it can reach a variable that is assigned between the two. Programs with such a
statement never run to their end, and no other accepted program meets an unset variable. -/
namespace CalcLang

namespace Expr

def called (e : Expr) : List String := e.calls.filterMap fun c => c.1.name?

theorem memCalledBinary {op : Operator} {left right : Expr} {name : String} :
    name ∈ (binary op left right).called ↔ name ∈ left.called ∨ name ∈ right.called := by
  simp only [called, calls, List.filterMap_append, List.mem_append]

theorem memCalledCall {callee : String} {args : List Expr} {name : String} :
    name ∈ (call (var callee) args).called ↔ name = callee ∨ ∃ arg ∈ args, name ∈ arg.called := by
  simp only [called, calls, List.nil_append, List.filterMap_cons, name?, List.mem_cons,
    List.mem_filterMap, memCallsOf]
  refine or_congr_right ⟨?_, ?_⟩
  · rintro ⟨c, ⟨arg, mem, inside⟩, same⟩
    exact ⟨arg, mem, c, inside, same⟩
  · rintro ⟨arg, mem, c, inside, same⟩
    exact ⟨c, ⟨arg, mem, inside⟩, same⟩

inductive Reaches (functions : Bindings Definition) : Expr → Definition → Prop
  | direct {e name d} (called : name ∈ e.called) (found : functions.get? name = some d) :
      Reaches functions e d
  | through {e name d target} (called : name ∈ e.called) (found : functions.get? name = some d)
      (inner : Reaches functions d.body target) : Reaches functions e target

variable {functions : Bindings Definition} {globals : Globals} {limit depth : Nat}
  {locals : Bindings Value}

theorem Reaches.mono {e other : Expr} {d : Definition} (reaches : Reaches functions e d)
    (more : ∀ name ∈ e.called, name ∈ other.called) : Reaches functions other d := by
  cases reaches with
  | direct called found => exact .direct (more _ called) found
  | through called found inner => exact .through (more _ called) found inner

theorem Reaches.isFunction {e : Expr} {d : Definition} (reaches : Reaches functions e d) :
    ∃ name, functions.get? name = some d := by
  induction reaches with
  | direct called found => exact ⟨_, found⟩
  | through called found inner ih => exact ih

def Unset (functions : Bindings Definition) (globals : Globals) (locals : Bindings Value) (e : Expr)
    (name : String) : Prop :=
  globals.get? name = none ∧
    (name ∈ e.reads ∧ locals.get? name = none ∨
      ∃ d, Reaches functions e d ∧ name ∈ d.body.reads ∧ name ∉ d.params)

theorem Unset.mono {e other : Expr} {name : String} (unset : Unset functions globals locals e name)
    (reads : ∀ read ∈ e.reads, read ∈ other.reads) (called : ∀ n ∈ e.called, n ∈ other.called) :
    Unset functions globals locals other name := by
  obtain ⟨absent, ⟨read, free⟩ | ⟨d, reaches, source⟩⟩ := unset
  · exact ⟨absent, .inl ⟨reads name read, free⟩⟩
  · exact ⟨absent, .inr ⟨d, reaches.mono called, source⟩⟩

theorem unsetSource {e : Expr} {name : String}
    (failed : e.evaluate functions globals limit depth locals = .error (.undefinedVariable name)) :
    Unset functions globals locals e name := by
  induction depth, e using inductionByDepth functions limit generalizing locals with
  | number depth value =>
    rw [evaluate] at failed
    cases failed
  | var depth other =>
    obtain ⟨free, absent, same⟩ := varError failed
    cases same
    exact ⟨absent, .inl ⟨by simp [reads], free⟩⟩
  | binary depth op left right ihLeft ihRight =>
    rcases binaryError failed with first | second | ⟨o, overflow⟩
    · exact (ihLeft first).mono (fun n read => by simp [reads, read])
        fun n called => memCalledBinary.mpr (.inl called)
    · exact (ihRight second).mono (fun n read => by simp [reads, read])
        fun n called => memCalledBinary.mpr (.inr called)
    · cases overflow
  | call depth callee args ih deeper =>
    obtain ⟨callee, rfl⟩ := calleeNamed failed (by simp)
    rcases callError failed with ⟨arg, mem, early⟩ | ⟨_, other⟩ | ⟨d, found, late⟩
    · refine (ih arg mem early).mono (fun n read => ?_) fun n called => ?_
      · rw [reads]
        exact memReadsOf.mpr ⟨arg, mem, read⟩
      · exact memCalledCall.mpr (.inr ⟨arg, mem, called⟩)
    · cases other
    · rcases late with ⟨_, other⟩ | ⟨_, _, other⟩ | ⟨values, _, lengths, shallow, inner⟩
      · cases other
      · cases other
      · have here : callee ∈ (call (var callee) args).called := memCalledCall.mpr (.inl rfl)
        obtain ⟨absent, source⟩ := deeper callee d found shallow inner
        refine ⟨absent, .inr ?_⟩
        rcases source with ⟨read, free⟩ | ⟨target, reaches, source⟩
        · -- the body's locals bind exactly its parameters, so the name is none of them
          refine ⟨d, .direct here found, read, fun param => ?_⟩
          have bound := (Bindings.boundOfZip lengths name).mpr param
          rw [free] at bound
          cases bound
        · exact ⟨target, .through here found reaches, source⟩

theorem readsOk {e : Expr} {v : Value} (done : e.evaluate functions globals limit depth locals = .ok v)
    {name : String} (read : name ∈ e.reads) : ((locals.get? name).or (globals.get? name)).isSome := by
  induction e generalizing v with
  | number value => simp [reads] at read
  | var other =>
    rw [reads, List.mem_singleton] at read
    subst read
    rw [varOk done]
    rfl
  | binary op left right ihLeft ihRight =>
    obtain ⟨a, b, first, second, _⟩ := binaryOk done
    rw [reads, List.mem_append] at read
    exact read.elim (ihLeft first) (ihRight second)
  | call callee args _ ih =>
    obtain ⟨callee, values, d, rfl, all, _⟩ := callOk done
    rw [reads] at read
    obtain ⟨arg, mem, inside⟩ := memReadsOf.mp read
    obtain ⟨w, evaluated⟩ := evaluateAllOk all arg mem
    exact ih arg mem evaluated inside

theorem calledOk {e : Expr} {v : Value} (done : e.evaluate functions globals limit depth locals = .ok v)
    {name : String} (called : name ∈ e.called) :
    ∃ d values w, functions.get? name = some d ∧ values.length = d.params.length ∧ depth < limit ∧
      d.body.evaluate functions globals limit (depth + 1) (.ofPairs (d.params.zip values)) = .ok w := by
  induction e generalizing v with
  | number value => simp [Expr.called, calls] at called
  | var other => simp [Expr.called, calls] at called
  | binary op left right ihLeft ihRight =>
    obtain ⟨a, b, first, second, _⟩ := binaryOk done
    exact (memCalledBinary.mp called).elim (ihLeft first) (ihRight second)
  | call callee args _ ih =>
    obtain ⟨callee, values, d, rfl, all, found, lengths, shallow, returned⟩ := callOk done
    rcases memCalledCall.mp called with rfl | ⟨arg, mem, inside⟩
    · exact ⟨d, values, v, found, lengths, shallow, returned⟩
    · obtain ⟨w, evaluated⟩ := evaluateAllOk all arg mem
      exact ih arg mem evaluated inside

theorem reachedSet {e : Expr} {d : Definition} (reaches : Reaches functions e d) {v : Value}
    (done : e.evaluate functions globals limit depth locals = .ok v) {name : String}
    (read : name ∈ d.body.reads) (free : name ∉ d.params) : (globals.get? name).isSome := by
  induction reaches generalizing depth locals v with
  | @direct _ _ target called found =>
    obtain ⟨d, values, w, here, lengths, _, returned⟩ := calledOk done called
    cases found.symm.trans here
    have unbound : ((Bindings.ofPairs (target.params.zip values)).get? name) = none := by
      rw [← Option.not_isSome_iff_eq_none, Bindings.boundOfZip lengths]
      exact free
    have bound := readsOk returned read
    rwa [unbound, Option.none_or] at bound
  | through called found inner ih =>
    obtain ⟨middle, values, w, here, _, _, returned⟩ := calledOk done called
    cases found.symm.trans here
    exact ih returned read free

end Expr

/-! Pooling literals changes neither what is read nor what is called. -/

namespace Expr

theorem readsOfMap (args : List Expr) : readsOf args = (args.map reads).flatten := by
  induction args with
  | nil => rfl
  | cons e rest ih => rw [readsOf, ih, List.map_cons, List.flatten_cons]

theorem calledOfMap (args : List Expr) :
    (callsOf args).filterMap (fun c => c.1.name?) = (args.map called).flatten := by
  induction args with
  | nil => rfl
  | cons e rest ih => rw [callsOf, List.filterMap_append, ih, List.map_cons, List.flatten_cons, called]

theorem pooledReads (pool : Pool) (e : Expr) : (e.pooled pool).reads = e.reads := by
  induction e generalizing pool with
  | number value => rfl
  | var name => rfl
  | binary op left right ihLeft ihRight => rw [pooled, reads, reads, ihLeft, ihRight]
  | call callee args _ ih =>
    rw [pooled]
    cases callee <;> simp only [reads, readsOfMap, pooledOfMap ih]

theorem pooledCalled (pool : Pool) (e : Expr) : (e.pooled pool).called = e.called := by
  induction e generalizing pool with
  | number value => rfl
  | var name => rfl
  | binary op left right ihLeft ihRight =>
    simp only [called] at ihLeft ihRight
    rw [pooled, called, called, calls, calls, List.filterMap_append, List.filterMap_append, ihLeft, ihRight]
  | call callee args _ ih =>
    rw [pooled, called, called, calls, calls, List.filterMap_cons, List.filterMap_cons,
      List.filterMap_append, List.filterMap_append, calledOfMap, calledOfMap, pooledOfMap ih]

end Expr

namespace Program

theorem pooledReaches {p : Program} {e other : Expr} (same : other.called = e.called) {d : Definition}
    (reaches : e.Reaches p.functions d) : other.Reaches p.pooled.functions d.pooled := by
  induction reaches generalizing other with
  | @direct e name d called found =>
    refine .direct (same ▸ called) ?_
    rw [pooledFunction, found, Option.map_some]
  | @through e name d target called found inner ih =>
    refine .through (d := d.pooled) (same ▸ called) ?_ (ih (Expr.pooledCalled [] d.body))
    rw [pooledFunction, found, Option.map_some]

theorem reachesOfPooled {p : Program} {e other : Expr} (same : other.called = e.called) {d : Definition}
    (reaches : other.Reaches p.pooled.functions d) :
    ∃ original, e.Reaches p.functions original ∧ d = original.pooled := by
  induction reaches generalizing e with
  | @direct other name d called found =>
    rw [pooledFunction, Option.map_eq_some_iff] at found
    obtain ⟨original, found, rfl⟩ := found
    exact ⟨original, .direct (same ▸ called) found, rfl⟩
  | @through other name d target called found inner ih =>
    rw [pooledFunction, Option.map_eq_some_iff] at found
    obtain ⟨original, found, rfl⟩ := found
    obtain ⟨last, reaches, rfl⟩ := ih (Expr.pooledCalled [] original.body)
    exact ⟨last, .through (same ▸ called) found reaches, rfl⟩

end Program

theorem pooledStatementsAppend (pool : Pool) (before rest : List Statement) :
    pooledStatements pool (before ++ rest) = pooledStatements pool before ++
      pooledStatements (pool.grow (before.flatMap Statement.topLiterals)) rest := by
  induction before generalizing pool with
  | nil => rfl
  | cons s others ih =>
    rw [List.cons_append, pooledStatements, ih, pooledStatements, List.flatMap_cons, Pool.growAppend,
      List.cons_append]

theorem pooledStatementsSplit {pool : Pool} {statements before after : List Statement} {s : Statement}
    (split : pooledStatements pool statements = before ++ s :: after) :
    ∃ first original others final, statements = first ++ original :: others ∧
      before = pooledStatements pool first ∧ s = original.pooled final := by
  induction before generalizing pool statements with
  | nil =>
    cases statements with
    | nil => cases split
    | cons original others =>
      rw [pooledStatements, List.nil_append] at split
      cases split
      exact ⟨[], original, others, pool, rfl, rfl, rfl⟩
  | cons t rest ih =>
    cases statements with
    | nil => cases split
    | cons head tail =>
      rw [pooledStatements, List.cons_append] at split
      obtain ⟨rfl, later⟩ := List.cons.inj split
      obtain ⟨first, original, others, final, rfl, rfl, same⟩ := ih later
      exact ⟨head :: first, original, others, final, rfl, rfl, same⟩

theorem pooledAssigns {pool : Pool} {statements : List Statement} {name : String} :
    (∃ value, .assign name value ∈ pooledStatements pool statements) ↔
      ∃ value, .assign name value ∈ statements := by
  induction statements generalizing pool with
  | nil => rfl
  | cons s rest ih =>
    simp only [pooledStatements, List.mem_cons, exists_or, ih]
    refine or_congr_left ?_
    cases s <;> simp [Statement.pooled]

theorem Statement.pooledTop (pool : Pool) (s : Statement) :
    (s.pooled pool).top? = s.top?.map (Expr.pooled pool) := by
  cases s <;> rfl

namespace Program

theorem topFailed {p : Program} {limit : Nat} {error : RunError}
    (failed : (p.pooled.evaluate limit).result = .error error) :
    ∃ before s after e pool middle, p.statements = before ++ s :: after ∧ s.top? = some e ∧
      evaluateStatements p.pooled.functions limit .empty (pooledStatements [] before) =
        ⟨.ok none, middle⟩ ∧
      (e.pooled pool).evaluate p.pooled.functions middle limit 0 .empty = .error error := by
  obtain ⟨_, _, _, middle, split, ran, failed⟩ := evaluateStatementsError failed
  obtain ⟨before, s, after, pool, whole, rfl, rfl⟩ := pooledStatementsSplit split
  obtain ⟨pooled, top, failed⟩ := Statement.effectError failed
  rw [Statement.pooledTop, Option.map_eq_some_iff] at top
  obtain ⟨e, top, rfl⟩ := top
  exact ⟨before, s, after, e, pool, middle, whole, top, ran, failed⟩

theorem topReturned {p : Program} {limit : Nat} {value : Option Value}
    (done : (p.pooled.evaluate limit).result = .ok value) {before after : List Statement}
    {s : Statement} {e : Expr} (split : p.statements = before ++ s :: after) (top : s.top? = some e) :
    ∃ pool middle v,
      evaluateStatements p.pooled.functions limit .empty (pooledStatements [] before) =
        ⟨.ok none, middle⟩ ∧
      (e.pooled pool).evaluate p.pooled.functions middle limit 0 .empty = .ok v := by
  change (evaluateStatements p.pooled.functions limit .empty
    (pooledStatements [] p.statements)).result = .ok value at done
  rw [split, pooledStatementsAppend, pooledStatements] at done
  obtain ⟨middle, next, ran, done⟩ := evaluateStatementsOk done
  obtain ⟨v, evaluated⟩ := Statement.effectOk done (by rw [Statement.pooledTop, top]; rfl)
  exact ⟨_, middle, v, ran, evaluated⟩

/-- A statement reaches a function defined below it that reads a variable which no statement
above assigns. -/
def Exposes (p : Program) (name : String) : Prop :=
  ∃ before s after e d, p.statements = before ++ s :: after ∧ s.top? = some e ∧
    e.Reaches p.functions d ∧ d ∈ (Program.mk after).definitions ∧ name ∈ d.body.reads ∧
    name ∉ d.params ∧ ∀ value, .assign name value ∉ before

theorem exposed {p : Program} (accepted : p.check = .ok ()) {before after : List Statement}
    {s : Statement} {e : Expr} {name : String} (split : p.statements = before ++ s :: after)
    (top : s.top? = some e) (unassigned : ∀ value, .assign name value ∉ before)
    (source : name ∈ e.reads ∨
      ∃ d, e.Reaches p.functions d ∧ name ∈ d.body.reads ∧ name ∉ d.params) :
    p.Exposes name := by
  rcases source with read | ⟨d, reaches, read, free⟩
  · have same : s.expr = e ∧ s.params = [] := by cases s <;> cases top <;> exact ⟨rfl, rfl⟩
    rw [← same.1] at read
    rcases readsAssigned accepted split read with param | ⟨value, mem⟩
    · rw [same.2] at param
      cases param
    · exact absurd mem (unassigned value)
  · refine ⟨before, s, after, e, d, split, top, reaches, ?_, read, free, unassigned⟩
    obtain ⟨function, found⟩ := reaches.isFunction
    have defined := memDefinitions.mp (functionDefined found).1
    rw [split, List.mem_append, List.mem_cons] at defined
    -- the reads of a definition above the statement are assigned above it too
    rcases defined with above | rfl | below
    · obtain ⟨first, others, rfl⟩ := List.append_of_mem above
      rw [List.append_assoc] at split
      rcases readsAssigned accepted split read with param | ⟨value, mem⟩
      · exact absurd param free
      · exact absurd (List.mem_append_left _ mem) (unassigned value)
    · cases top
    · exact memDefinitions.mpr below

theorem unsetExposed {p : Program} (accepted : p.check = .ok ()) {limit : Nat} {name : String}
    (failed : (p.pooled.evaluate limit).result = .error (.undefinedVariable name)) :
    p.Exposes name := by
  obtain ⟨before, s, after, e, pool, middle, whole, top, ran, failed⟩ := topFailed failed
  obtain ⟨unset, source⟩ := Expr.unsetSource failed
  have unassigned : ∀ value, .assign name value ∉ before := by
    intro value mem
    have bound := (evaluateStatementsBound ran name).mpr (.inr (pooledAssigns.mpr ⟨value, mem⟩))
    rw [unset] at bound
    cases bound
  refine exposed accepted whole top unassigned ?_
  rcases source with ⟨read, _⟩ | ⟨d, reaches, read, free⟩
  · exact .inl (Expr.pooledReads pool e ▸ read)
  · obtain ⟨original, reached, rfl⟩ := reachesOfPooled (Expr.pooledCalled pool e) reaches
    exact .inr ⟨original, reached, Expr.pooledReads [] original.body ▸ read, free⟩

theorem exposedFails {p : Program} {name : String} (exposes : p.Exposes name) (limit : Nat) :
    ∃ e, (p.pooled.evaluate limit).result = .error e := by
  obtain ⟨before, s, after, e, d, split, top, reaches, _, read, free, unassigned⟩ := exposes
  cases ended : (p.pooled.evaluate limit).result with
  | error e => exact ⟨e, rfl⟩
  | ok value =>
    obtain ⟨pool, middle, v, ran, evaluated⟩ := topReturned ended split top
    have set := Expr.reachedSet (pooledReaches (Expr.pooledCalled _ e) reaches) evaluated
      (Expr.pooledReads [] d.body ▸ read) free
    rcases (evaluateStatementsBound ran name).mp set with initial | assigned
    · cases initial
    · obtain ⟨value, mem⟩ := pooledAssigns.mp assigned
      exact absurd mem (unassigned value)

end Program

theorem unsetOnlyExposed {p : Program} {x : Executable} (accepted : p.check = .ok ())
    (compiled : p.compile = .ok x) (limit : Nat) :
    (∀ name, (x.run limit).result = .error (.undefinedVariable name) → p.Exposes name) ∧
      ∀ name, p.Exposes name → ∃ e, (x.run limit).result = .error e := by
  rw [Program.runPooled compiled]
  exact ⟨fun name failed => Program.unsetExposed accepted failed,
    fun name exposes => Program.exposedFails exposes limit⟩

def earlyCall : Program :=
  ⟨[.eval (.call (.var "f") []), .assign "x" (.number (.int 1)), .define "f" [] (.var "x")]⟩

theorem earlyCallUnset :
    earlyCall.check = .ok () ∧ earlyCall.compile = .ok earlyCall.lowered ∧
      (earlyCall.lowered.run 1000).result = .error (.undefinedVariable "x") := by
  decide +kernel

theorem earlyCallExposed : earlyCall.check = .ok () ∧ earlyCall.Exposes "x" := by
  have accepted : earlyCall.check = .ok () := by decide
  have compiled : earlyCall.compile = .ok earlyCall.lowered := by decide +kernel
  exact ⟨accepted, (unsetOnlyExposed accepted compiled 1000).1 "x" (by decide +kernel)⟩

/-! A statement that calls nothing reaches no function, so it may stand above definitions; where
only such statements do, no program exposes a variable. -/

def Statement.runsCall (s : Statement) : Bool := s.top?.any fun e => !e.calls.isEmpty

def Program.DefinesFirst (p : Program) : Prop :=
  p.statements.Pairwise fun s t => s.runsCall = true → t.top?.isSome = true

instance (p : Program) : Decidable p.DefinesFirst :=
  inferInstanceAs (Decidable (List.Pairwise _ p.statements))

theorem Expr.Reaches.calls {functions : Bindings Definition} {e : Expr} {d : Definition}
    (reaches : e.Reaches functions d) : e.calls ≠ [] := by
  have nonempty {name : String} (called : name ∈ e.called) : e.calls ≠ [] := by
    intro none
    rw [Expr.called, none] at called
    cases called
  cases reaches with
  | direct called _ => exact nonempty called
  | through called _ _ => exact nonempty called

theorem Program.definesFirstHides {p : Program} (first : p.DefinesFirst) (name : String) :
    ¬ p.Exposes name := by
  rintro ⟨before, s, after, e, d, split, top, reaches, below, _⟩
  rw [DefinesFirst, split, List.pairwise_append] at first
  obtain ⟨later, _⟩ := List.pairwise_cons.mp first.2.1
  have calls : s.runsCall = true := by
    rw [Statement.runsCall, top, Option.any_some]
    simpa using reaches.calls
  cases later _ (memDefinitions.mp below) calls

theorem definedFirstNeverUnset {p : Program} (accepted : p.check = .ok ()) (first : p.DefinesFirst) :
    ∃ x, p.compile = .ok x ∧
      ∀ limit name, (x.run limit).result ≠ .error (.undefinedVariable name) := by
  have compiled := Program.compileChecked accepted
  refine ⟨p.lowered, compiled, fun limit name failed => ?_⟩
  rw [Program.runPooled compiled] at failed
  exact Program.definesFirstHides first name (Program.unsetExposed accepted failed)

def definedFirst : Program :=
  ⟨[.assign "x" (.number (.int 2)),
    .define "f" ["n"] (.binary .add (.call (.var "g") [.var "n"]) (.var "x")),
    .assign "y" (.binary .mul (.var "x") (.number (.int 3))),
    .define "g" ["x"] (.call (.var "f") [.binary .sub (.var "x") (.var "y")]),
    .assign "z" (.call (.var "f") [.var "y"])]⟩

theorem definedFirstNeverUnsetMutual :
    definedFirst.check = .ok () ∧ definedFirst.DefinesFirst ∧
      ∃ x, definedFirst.compile = .ok x ∧
        ∀ limit name, (x.run limit).result ≠ .error (.undefinedVariable name) := by
  have accepted : definedFirst.check = .ok () := by decide
  have first : definedFirst.DefinesFirst := by decide
  exact ⟨accepted, first, definedFirstNeverUnset accepted first⟩

end CalcLang
