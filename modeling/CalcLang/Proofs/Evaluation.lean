import CalcLang.Proofs.Basic
import CalcLang.Tree.Evaluate

/-! What evaluating an expression can come to. Evaluation goes down into operands and
arguments and, as long as the depth limit allows, into the bodies of the functions called;
`inductionByDepth` is induction along these two ways. The lemmas behind it say, for each
kind of expression, where a value or an error comes from. -/
namespace CalcLang

def Outcome.follow {α : Type} (globals : Globals) (result : Except RunError α) (next : α → Outcome) :
    Outcome :=
  match result with
  | .ok a => next a
  | .error e => ⟨.error e, globals⟩

open Outcome (follow)

theorem followBind {α β : Type} (globals : Globals) (m : Except RunError α)
    (k : α → Except RunError β) (next : β → Outcome) :
    follow globals (m >>= k) next = follow globals m fun a => follow globals (k a) next := by
  cases m <;> rfl

namespace Program

theorem functionDefined {p : Program} {name : String} {d : Definition}
    (found : p.functions.get? name = some d) : d ∈ p.definitions ∧ d.name = name := by
  obtain ⟨e, mem, same⟩ := List.mem_map.mp (Bindings.memOfPairs found)
  cases same
  exact ⟨mem, rfl⟩

theorem definedFunction {p : Program} (distinct : (p.definitions.map Definition.name).Nodup)
    {d : Definition} (mem : d ∈ p.definitions) : p.functions.get? d.name = some d := by
  refine Bindings.getInsertAllDistinct ?_ (List.mem_map.mpr ⟨d, mem, rfl⟩)
  rw [List.map_map]
  exact distinct

end Program

namespace Expr

@[elab_as_elim]
theorem inductionByDepth (functions : Bindings Definition) (limit : Nat) {motive : Nat → Expr → Prop}
    (number : ∀ depth value, motive depth (.number value))
    (var : ∀ depth name, motive depth (.var name))
    (binary : ∀ depth op left right, motive depth left → motive depth right →
      motive depth (.binary op left right))
    (call : ∀ depth callee args, (∀ arg ∈ args, motive depth arg) →
      (∀ name d, functions.get? name = some d → depth < limit → motive (depth + 1) d.body) →
      motive depth (.call callee args))
    (depth : Nat) (e : Expr) : motive depth e := by
  induction room : limit - depth using Nat.strongRecOn generalizing depth e with
  | _ n deeper =>
    have bodies : ∀ name d, functions.get? name = some d → depth < limit → motive (depth + 1) d.body := by
      intro name d found shallow
      exact deeper (limit - (depth + 1)) (by omega) (depth + 1) d.body rfl
    induction e with
    | number value => exact number depth value
    | var name => exact var depth name
    | binary op left right ihLeft ihRight => exact binary depth op left right ihLeft ihRight
    | call callee args _ ih => exact call depth callee args ih bodies

variable {functions : Bindings Definition} {globals : Globals} {limit depth : Nat}
  {locals : Bindings Value}

theorem varOk {name : String} {v : Value}
    (done : (var name).evaluate functions globals limit depth locals = .ok v) :
    (locals.get? name).or (globals.get? name) = some v := by
  rw [evaluate] at done
  split at done
  · cases done
    assumption
  · cases done

theorem varError {name : String} {e : RunError}
    (failed : (var name).evaluate functions globals limit depth locals = .error e) :
    locals.get? name = none ∧ globals.get? name = none ∧ e = .undefinedVariable name := by
  rw [evaluate] at failed
  split at failed
  · cases failed
  · rename_i unbound
    cases failed
    rw [Option.or_eq_none_iff] at unbound
    exact ⟨unbound.1, unbound.2, rfl⟩

theorem binaryOk {op : Operator} {left right : Expr} {v : Value}
    (done : (binary op left right).evaluate functions globals limit depth locals = .ok v) :
    ∃ a b, left.evaluate functions globals limit depth locals = .ok a ∧
      right.evaluate functions globals limit depth locals = .ok b ∧ a.apply op b = .ok v := by
  rw [evaluate] at done
  obtain ⟨a, first, done⟩ := bindOk done
  obtain ⟨b, second, done⟩ := bindOk done
  refine ⟨a, b, first, second, ?_⟩
  cases applied : a.apply op b with
  | ok w =>
    rw [applied] at done
    cases done
    rfl
  | error o =>
    rw [applied] at done
    cases done

theorem binaryError {op : Operator} {left right : Expr} {e : RunError}
    (failed : (binary op left right).evaluate functions globals limit depth locals = .error e) :
    left.evaluate functions globals limit depth locals = .error e ∨
      right.evaluate functions globals limit depth locals = .error e ∨ ∃ o, e = .overflow o := by
  rw [evaluate] at failed
  rcases bindError failed with first | ⟨a, _, failed⟩
  · exact .inl first
  · rcases bindError failed with second | ⟨b, _, failed⟩
    · exact .inr (.inl second)
    · cases applied : a.apply op b with
      | ok w =>
        rw [applied] at failed
        cases failed
      | error o =>
        rw [applied] at failed
        cases failed
        exact .inr (.inr ⟨o, rfl⟩)

theorem evaluateAllLength {args : List Expr} {values : List Value}
    (done : evaluateAll functions globals limit depth locals args = .ok values) :
    values.length = args.length := by
  induction args generalizing values with
  | nil =>
    rw [evaluateAll] at done
    cases done
    rfl
  | cons e rest ih =>
    rw [evaluateAll] at done
    obtain ⟨v, _, done⟩ := bindOk done
    obtain ⟨others, all, done⟩ := bindOk done
    cases done
    simp [ih all]

theorem evaluateAllOk {args : List Expr} {values : List Value}
    (done : evaluateAll functions globals limit depth locals args = .ok values) :
    ∀ arg ∈ args, ∃ v, arg.evaluate functions globals limit depth locals = .ok v := by
  induction args generalizing values with
  | nil => simp
  | cons e rest ih =>
    rw [evaluateAll] at done
    obtain ⟨v, first, done⟩ := bindOk done
    obtain ⟨others, all, _⟩ := bindOk done
    intro arg mem
    rcases List.mem_cons.mp mem with rfl | mem
    · exact ⟨v, first⟩
    · exact ih all arg mem

theorem evaluateAllError {args : List Expr} {e : RunError}
    (failed : evaluateAll functions globals limit depth locals args = .error e) :
    ∃ arg ∈ args, arg.evaluate functions globals limit depth locals = .error e := by
  induction args with
  | nil =>
    rw [evaluateAll] at failed
    cases failed
  | cons first rest ih =>
    rw [evaluateAll] at failed
    rcases bindError failed with here | ⟨v, _, failed⟩
    · exact ⟨first, List.mem_cons_self, here⟩
    · rcases bindError failed with later | ⟨values, _, failed⟩
      · obtain ⟨arg, mem, failed⟩ := ih later
        exact ⟨arg, List.mem_cons_of_mem _ mem, failed⟩
      · cases failed

theorem calleeNamed {callee : Expr} {args : List Expr} {result : Except RunError Value}
    (ended : (call callee args).evaluate functions globals limit depth locals = result)
    (other : result ≠ .error (.undefinedFunction "<expr>")) : ∃ name, callee = var name := by
  cases callee with
  | var name => exact ⟨name, rfl⟩
  | _ =>
    rw [evaluate] at ended
    · exact absurd ended.symm other
    · simp

theorem callOk {callee : Expr} {args : List Expr} {v : Value}
    (done : (call callee args).evaluate functions globals limit depth locals = .ok v) :
    ∃ name values d, callee = var name ∧
      evaluateAll functions globals limit depth locals args = .ok values ∧
      functions.get? name = some d ∧ values.length = d.params.length ∧ depth < limit ∧
      d.body.evaluate functions globals limit (depth + 1) (.ofPairs (d.params.zip values)) = .ok v := by
  obtain ⟨name, rfl⟩ := calleeNamed done (by simp)
  rw [evaluate] at done
  obtain ⟨values, all, done⟩ := bindOk done
  have count := evaluateAllLength all
  cases found : functions.get? name with
  | none =>
    rw [found] at done
    cases done
  | some d =>
    rw [found] at done
    dsimp only at done
    split at done
    · cases done
    · split at done
      · cases done
      · exact ⟨name, values, d, rfl, all, found, by omega, by omega, done⟩

theorem callError {name : String} {args : List Expr} {e : RunError}
    (failed : (call (var name) args).evaluate functions globals limit depth locals = .error e) :
    (∃ arg ∈ args, arg.evaluate functions globals limit depth locals = .error e) ∨
    (functions.get? name = none ∧ e = .undefinedFunction name) ∨
    ∃ d, functions.get? name = some d ∧
      ((args.length ≠ d.params.length ∧ e = .arityMismatch name d.params.length args.length) ∨
      (args.length = d.params.length ∧ limit ≤ depth ∧ e = .recursionLimit limit) ∨
      ∃ values, evaluateAll functions globals limit depth locals args = .ok values ∧
        values.length = d.params.length ∧ depth < limit ∧
        d.body.evaluate functions globals limit (depth + 1) (.ofPairs (d.params.zip values)) =
          .error e) := by
  rw [evaluate] at failed
  rcases bindError failed with early | ⟨values, all, failed⟩
  · exact .inl (evaluateAllError early)
  · have count := evaluateAllLength all
    refine .inr ?_
    cases found : functions.get? name with
    | none =>
      rw [found] at failed
      cases failed
      exact .inl ⟨rfl, rfl⟩
    | some d =>
      refine .inr ⟨d, rfl, ?_⟩
      rw [found] at failed
      dsimp only at failed
      split at failed
      · rename_i different
        cases failed
        exact .inl ⟨different, rfl⟩
      · refine .inr ?_
        split at failed
        · cases failed
          exact .inl ⟨by omega, by omega, rfl⟩
        · exact .inr ⟨values, all, by omega, by omega, failed⟩

end Expr

namespace Statement

def top? : Statement → Option Expr
  | define .. => none
  | assign _ value => some value
  | eval expr => some expr

def effect (functions : Bindings Definition) (limit : Nat) (globals : Globals) :
    Statement → Except RunError Globals
  | define .. => .ok globals
  | assign name value => do
    let v ← value.evaluate functions globals limit 0 .empty
    .ok (globals.insert name v)
  | eval expr => do
    let _ ← expr.evaluate functions globals limit 0 .empty
    .ok globals

variable {functions : Bindings Definition} {limit : Nat} {globals after : Globals} {s : Statement}

theorem effectError {e : RunError} (failed : s.effect functions limit globals = .error e) :
    ∃ expr, s.top? = some expr ∧ expr.evaluate functions globals limit 0 .empty = .error e := by
  cases s with
  | define name params body => cases failed
  | assign name value =>
    rcases bindError failed with here | ⟨v, _, failed⟩
    · exact ⟨value, rfl, here⟩
    · cases failed
  | eval expr =>
    rcases bindError failed with here | ⟨v, _, failed⟩
    · exact ⟨expr, rfl, here⟩
    · cases failed

theorem effectOk (done : s.effect functions limit globals = .ok after) {expr : Expr}
    (top : s.top? = some expr) : ∃ v, expr.evaluate functions globals limit 0 .empty = .ok v := by
  cases s with
  | define name params body => cases top
  | assign name value =>
    cases top
    obtain ⟨v, evaluated, _⟩ := bindOk done
    exact ⟨v, evaluated⟩
  | eval body =>
    cases top
    obtain ⟨v, evaluated, _⟩ := bindOk done
    exact ⟨v, evaluated⟩

theorem effectBound (done : s.effect functions limit globals = .ok after) (name : String) :
    (after.get? name).isSome ↔ (globals.get? name).isSome ∨ ∃ value, s = .assign name value := by
  cases s with
  | define other params body =>
    cases done
    simp
  | assign other value =>
    obtain ⟨v, _, done⟩ := bindOk done
    cases done
    rw [Bindings.getInsert]
    split
    · rename_i same
      subst same
      exact ⟨fun _ => .inr ⟨value, rfl⟩, fun _ => rfl⟩
    · rename_i different
      refine ⟨.inl, ?_⟩
      rintro (bound | ⟨w, same⟩)
      · exact bound
      · cases same
        exact absurd rfl different
  | eval expr =>
    obtain ⟨v, _, done⟩ := bindOk done
    cases done
    simp

end Statement

section Statements

variable {functions : Bindings Definition} {limit : Nat}

theorem evaluateStatementsCons (globals : Globals) (s : Statement) (rest : List Statement) :
    evaluateStatements functions limit globals (s :: rest) =
      follow globals (s.effect functions limit globals) fun after =>
        evaluateStatements functions limit after rest := by
  cases s with
  | define name params body => rfl
  | assign name value =>
    rw [evaluateStatements, Statement.effect]
    cases value.evaluate functions globals limit 0 .empty <;> rfl
  | eval expr =>
    rw [evaluateStatements, Statement.effect]
    cases expr.evaluate functions globals limit 0 .empty <;> rfl

theorem evaluateStatementsAppend (globals : Globals) (before rest : List Statement) :
    evaluateStatements functions limit globals (before ++ rest) =
      match evaluateStatements functions limit globals before with
      | ⟨.ok _, middle⟩ => evaluateStatements functions limit middle rest
      | ⟨.error e, middle⟩ => ⟨.error e, middle⟩ := by
  induction before generalizing globals with
  | nil => rfl
  | cons s others ih =>
    rw [List.cons_append, evaluateStatementsCons, evaluateStatementsCons]
    cases s.effect functions limit globals with
    | error e => rfl
    | ok after => exact ih after

theorem evaluateStatementsValue {globals : Globals} {statements : List Statement}
    {value : Option Value}
    (done : (evaluateStatements functions limit globals statements).result = .ok value) :
    value = none := by
  induction statements generalizing globals with
  | nil =>
    cases done
    rfl
  | cons s rest ih =>
    rw [evaluateStatementsCons] at done
    cases ran : s.effect functions limit globals with
    | error e =>
      rw [ran] at done
      cases done
    | ok after =>
      rw [ran] at done
      exact ih done

theorem evaluateStatementsError {globals : Globals} {statements : List Statement} {e : RunError}
    (failed : (evaluateStatements functions limit globals statements).result = .error e) :
    ∃ before s after middle, statements = before ++ s :: after ∧
      evaluateStatements functions limit globals before = ⟨.ok none, middle⟩ ∧
      s.effect functions limit middle = .error e := by
  induction statements generalizing globals with
  | nil => cases failed
  | cons s rest ih =>
    rw [evaluateStatementsCons] at failed
    cases ran : s.effect functions limit globals with
    | error other =>
      rw [ran] at failed
      cases failed
      exact ⟨[], s, rest, globals, rfl, rfl, ran⟩
    | ok next =>
      rw [ran] at failed
      obtain ⟨before, t, after, middle, split, earlier, here⟩ := ih failed
      refine ⟨s :: before, t, after, middle, by rw [split]; rfl, ?_, here⟩
      rw [evaluateStatementsCons, ran]
      exact earlier

theorem evaluateStatementsStopped {globals middle : Globals} {before after : List Statement}
    {s : Statement} {e : RunError}
    (ran : evaluateStatements functions limit globals before = ⟨.ok none, middle⟩)
    (failed : s.effect functions limit middle = .error e) :
    evaluateStatements functions limit globals (before ++ s :: after) = ⟨.error e, middle⟩ := by
  rw [evaluateStatementsAppend, ran]
  dsimp only
  rw [evaluateStatementsCons, failed]
  rfl

theorem evaluateStatementsOk {globals : Globals} {before after : List Statement} {s : Statement}
    {value : Option Value}
    (done : (evaluateStatements functions limit globals (before ++ s :: after)).result = .ok value) :
    ∃ middle next, evaluateStatements functions limit globals before = ⟨.ok none, middle⟩ ∧
      s.effect functions limit middle = .ok next := by
  rw [evaluateStatementsAppend] at done
  cases earlier : evaluateStatements functions limit globals before with
  | mk result middle =>
    rw [earlier] at done
    cases result with
    | error e => cases done
    | ok v =>
      have nothing : v = none := evaluateStatementsValue (by rw [earlier])
      subst nothing
      dsimp only at done
      rw [evaluateStatementsCons] at done
      cases ran : s.effect functions limit middle with
      | error e =>
        rw [ran] at done
        cases done
      | ok next => exact ⟨middle, next, rfl, ran⟩

theorem evaluateStatementsBound {globals final : Globals} {statements : List Statement}
    {value : Option Value} (done : evaluateStatements functions limit globals statements = ⟨.ok value, final⟩)
    (name : String) :
    (final.get? name).isSome ↔
      (globals.get? name).isSome ∨ ∃ value, .assign name value ∈ statements := by
  induction statements generalizing globals with
  | nil =>
    cases done
    simp
  | cons s rest ih =>
    rw [evaluateStatementsCons] at done
    cases ran : s.effect functions limit globals with
    | error e =>
      rw [ran] at done
      cases done
    | ok after =>
      rw [ran] at done
      rw [ih done, Statement.effectBound ran]
      simp only [List.mem_cons, exists_or, or_assoc, eq_comm]

theorem evaluateStatementsSet {globals : Globals} {statements : List Statement} {name : String}
    (set : ((evaluateStatements functions limit globals statements).globals.get? name).isSome) :
    (globals.get? name).isSome ∨ ∃ value, .assign name value ∈ statements := by
  induction statements generalizing globals with
  | nil => exact .inl set
  | cons s rest ih =>
    rw [evaluateStatementsCons] at set
    cases ran : s.effect functions limit globals with
    | error e =>
      rw [ran] at set
      exact .inl set
    | ok after =>
      rw [ran] at set
      rcases ih set with earlier | ⟨value, mem⟩
      · rcases (Statement.effectBound ran name).mp earlier with initial | ⟨value, rfl⟩
        · exact .inl initial
        · exact .inr ⟨value, List.mem_cons_self⟩
      · exact .inr ⟨value, List.mem_cons_of_mem _ mem⟩

theorem evaluateStatementsStuck {globals : Globals} {before after : List Statement} {s : Statement}
    (stuck : ∀ middle, ∃ e, s.effect functions limit middle = .error e) :
    ∃ e, evaluateStatements functions limit globals (before ++ s :: after) =
      ⟨.error e, (evaluateStatements functions limit globals before).globals⟩ := by
  rw [evaluateStatementsAppend]
  cases evaluateStatements functions limit globals before with
  | mk result middle =>
    cases result with
    | error e => exact ⟨e, rfl⟩
    | ok value =>
      obtain ⟨e, failed⟩ := stuck middle
      refine ⟨e, ?_⟩
      dsimp only
      rw [evaluateStatementsCons, failed]
      rfl

end Statements
end CalcLang
