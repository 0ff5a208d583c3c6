import CalcLang.Proofs.Meaning

/-! Runs that fail. A failing run has carried out some of the statements of the top level and nothing
of the next one: the program that ends before that statement runs without an error and sets the same
globals, and the program that ends behind it fails in the same way. Its top-level code and its pool
are other ones, so the comparison goes through the meaning of both programs. -/
namespace CalcLang

def keepTop : Nat → List Statement → List Statement
  | _, [] => []
  | count, .define name params body :: rest => .define name params body :: keepTop count rest
  | 0, _ :: rest => keepTop 0 rest
  | count + 1, s :: rest => s :: keepTop count rest

def Program.keep (p : Program) (count : Nat) : Program := ⟨keepTop count p.statements⟩

theorem keepTopSubset (count : Nat) (statements : List Statement) :
    keepTop count statements ⊆ statements := by
  fun_induction keepTop count statements with
  | case1 => exact List.Subset.refl _
  | case2 count name params body rest ih => exact List.cons_subset_cons _ ih
  | case3 s rest _ ih => exact List.subset_cons_of_subset _ ih
  | case4 count s rest _ ih => exact List.cons_subset_cons _ ih

theorem pooledKeepNone (statements : List Statement) (pool other : Pool) :
    pooledStatements pool (keepTop 0 statements) = keepTop 0 (pooledStatements other statements) := by
  induction statements generalizing pool other with
  | nil => rfl
  | cons s rest ih =>
    cases s with
    | define name params body => exact congrArg (List.cons _) (ih _ _)
    | assign name value => exact ih _ _
    | eval expr => exact ih _ _

theorem pooledKeep (count : Nat) (statements : List Statement) (pool : Pool) :
    pooledStatements pool (keepTop count statements) = keepTop count (pooledStatements pool statements) := by
  induction statements generalizing count pool with
  | nil => rfl
  | cons s rest ih =>
    cases count with
    -- what is left out does not add to the pool, but no definition looks at the pool
    | zero => exact pooledKeepNone (s :: rest) pool pool
    | succ count => cases s <;> exact congrArg (List.cons _) (ih _ _)

namespace Program

theorem keepDefinitions (p : Program) (count : Nat) : (p.keep count).definitions = p.definitions := by
  obtain ⟨statements⟩ := p
  simp only [keep, definitions]
  induction statements generalizing count with
  | nil => rfl
  | cons s rest ih =>
    cases s with
    | define name params body => exact congrArg (List.cons _) (ih count)
    | assign name value => cases count <;> exact ih _
    | eval expr => cases count <;> exact ih _

theorem keepLowerable {p : Program} (able : p.Lowerable) (count : Nat) : (p.keep count).Lowerable := by
  refine ⟨?_, fun s mem => able.calls s (keepTopSubset count p.statements mem)⟩
  rw [keepDefinitions]
  exact able.functions

theorem keepPooled (p : Program) (count : Nat) : (p.keep count).pooled = p.pooled.keep count :=
  congrArg Program.mk (pooledKeep count p.statements [])

theorem keepFunctions (p : Program) (count : Nat) : (p.keep count).functions = p.functions := by
  rw [functions, functions, keepDefinitions]

theorem keepRun {p : Program} (able : p.Lowerable) (count limit : Nat) :
    ∃ x, (p.keep count).compile = .ok x ∧
      x.run limit = evaluateStatements p.pooled.functions limit .empty
        (keepTop count p.pooled.statements) := by
  have compiled := compileLowerable (keepLowerable able count)
  refine ⟨_, compiled, ?_⟩
  rw [runPooled compiled, keepPooled, evaluate, keepFunctions]
  rfl

end Program

section Evaluation

variable {functions : Bindings Definition} {limit : Nat}

theorem evaluateKeepNone (globals : Globals) (statements : List Statement) :
    evaluateStatements functions limit globals (keepTop 0 statements) = ⟨.ok none, globals⟩ := by
  induction statements with
  | nil => rfl
  | cons s rest ih => cases s <;> exact ih

theorem keepTopCons (count : Nat) (s : Statement) (rest : List Statement) :
    ∃ next, keepTop next (s :: rest) = s :: keepTop count rest ∧
      keepTop (next + 1) (s :: rest) = s :: keepTop (count + 1) rest := by
  cases s with
  | define name params body => exact ⟨count, rfl, rfl⟩
  | assign name value => exact ⟨count + 1, rfl, rfl⟩
  | eval expr => exact ⟨count + 1, rfl, rfl⟩

theorem keepTopFailing {s : Statement} {globals : Globals} {e : RunError}
    (failed : s.effect functions limit globals = .error e) (rest : List Statement) :
    keepTop 0 (s :: rest) = keepTop 0 rest ∧ keepTop 1 (s :: rest) = s :: keepTop 0 rest := by
  cases s with
  | define name params body => cases failed
  | assign name value => exact ⟨rfl, rfl⟩
  | eval expr => exact ⟨rfl, rfl⟩

theorem evaluateKeepError {globals : Globals} {statements : List Statement} {e : RunError}
    {final : Globals}
    (failed : evaluateStatements functions limit globals statements = ⟨.error e, final⟩) :
    ∃ count,
      evaluateStatements functions limit globals (keepTop count statements) = ⟨.ok none, final⟩ ∧
      evaluateStatements functions limit globals (keepTop (count + 1) statements) =
        ⟨.error e, final⟩ := by
  induction statements generalizing globals with
  | nil => cases failed
  | cons s rest ih =>
    rw [evaluateStatementsCons] at failed
    cases ran : s.effect functions limit globals with
    | error stuck =>
      rw [ran] at failed
      cases failed
      obtain ⟨before, behind⟩ := keepTopFailing ran rest
      refine ⟨0, by rw [before, evaluateKeepNone], ?_⟩
      rw [behind, evaluateStatementsCons, ran]
      rfl
    | ok after =>
      rw [ran] at failed
      obtain ⟨count, done, stopped⟩ := ih failed
      obtain ⟨next, before, behind⟩ := keepTopCons count s rest
      refine ⟨next, ?_, ?_⟩
      · rw [before, evaluateStatementsCons, ran]
        exact done
      · rw [behind, evaluateStatementsCons, ran]
        exact stopped

end Evaluation

theorem failingRunStopsBetween {p : Program} {x : Executable} {limit : Nat} {e : RunError}
    (compiled : p.compile = .ok x) (failed : (x.run limit).result = .error e) :
    ∃ count y z, (p.keep count).compile = .ok y ∧ y.run limit = ⟨.ok none, (x.run limit).globals⟩ ∧
      (p.keep (count + 1)).compile = .ok z ∧ z.run limit = ⟨.error e, (x.run limit).globals⟩ := by
  have able := Program.lowerableOfCompile compiled
  rw [Program.runPooled compiled] at failed ⊢
  have whole : evaluateStatements p.pooled.functions limit .empty p.pooled.statements =
      ⟨.error e, (p.pooled.evaluate limit).globals⟩ := congrArg (Outcome.mk · _) failed
  obtain ⟨count, done, stopped⟩ := evaluateKeepError whole
  obtain ⟨y, compiledBefore, ranBefore⟩ := Program.keepRun able count limit
  obtain ⟨z, compiledBehind, ranBehind⟩ := Program.keepRun able (count + 1) limit
  exact ⟨count, y, z, compiledBefore, ranBefore.trans done, compiledBehind, ranBehind.trans stopped⟩

theorem failingRunStopsBetweenNested :
    nestedCalls.compile = .ok nestedCalls.lowered ∧
      (nestedCalls.lowered.run 1).result = .error (.recursionLimit 1) ∧
      ∃ count y z, (nestedCalls.keep count).compile = .ok y ∧
        y.run 1 = ⟨.ok none, .ofPairs [("y", .int 3)]⟩ ∧
        (nestedCalls.keep (count + 1)).compile = .ok z ∧
        z.run 1 = ⟨.error (.recursionLimit 1), .ofPairs [("y", .int 3)]⟩ := by
  have compiled : nestedCalls.compile = .ok nestedCalls.lowered := by decide +kernel
  have failed : (nestedCalls.lowered.run 1).result = .error (.recursionLimit 1) := by decide +kernel
  have left : (nestedCalls.lowered.run 1).globals = .ofPairs [("y", .int 3)] := by decide +kernel
  have cut := failingRunStopsBetween compiled failed
  rw [left] at cut
  exact ⟨compiled, failed, cut⟩

end CalcLang
