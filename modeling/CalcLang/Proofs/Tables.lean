import CalcLang.Proofs.Soundness
import CalcLang.Source
import Mathlib.Data.List.Perm.Basic

/-! What compiling refuses, and the table of functions that it builds. A body is compiled apart from
all others, and the entries of the table are kept in the order of their names; so the code of a
program does not depend on where its functions are defined. Where all names are distinct, a callee
that is no name is all that can be refused. -/
namespace CalcLang

namespace Bindings

variable {α : Type}

theorem placePerm {name : String} (value : α) {entries : List (String × α)}
    (absent : find name entries = none) : (place name value entries).Perm ((name, value) :: entries) := by
  induction entries with
  | nil => exact .refl _
  | cons head rest ih =>
    simp only [find] at absent
    split at absent
    · cases absent
    · rename_i different
      simp only [place, if_neg different]
      split
      · exact .refl _
      · exact ((ih absent).cons head).trans (.swap _ _ rest)

theorem insertAllPerm {b : Bindings α} {pairs : List (String × α)}
    (fresh : b.Fresh (pairs.map Prod.fst)) : (b.insertAll pairs).entries.Perm (b.entries ++ pairs) := by
  induction pairs generalizing b with
  | nil =>
    rw [List.append_nil]
    exact .refl _
  | cons p rest ih =>
    rw [List.map_cons] at fresh
    have absent : b.get? p.1 = none := fresh.1 p.1 List.mem_cons_self
    have first : (b.insert p.1 p.2).entries.Perm (p :: b.entries) := placePerm p.2 absent
    have later := ih ((freshCons p.2).mp fresh).2
    exact later.trans ((first.append_right rest).trans List.perm_middle.symm)

theorem ofPairsPerm {pairs : List (String × α)} (distinct : (pairs.map Prod.fst).Nodup) :
    (ofPairs pairs).entries.Perm pairs := insertAllPerm (freshEmpty.mpr distinct)

theorem eqOfPerm {a b : Bindings α} (same : a.entries.Perm b.entries) : a = b := by
  have ordered : a.entries = b.entries := by
    refine same.eq_of_pairwise (fun p q _ _ below above => ?_) a.sorted b.sorted
    exact absurd (String.lt_trans below above) (String.lt_irrefl _)
  obtain ⟨entries, sorted⟩ := a
  cases ordered
  rfl

end Bindings

theorem Program.loweredEntries {p : Program} (able : p.Lowerable) :
    p.lowered.functions.entries.Perm (p.definitions.map fun d => (d.name, d.lowered)) := by
  refine Bindings.ofPairsPerm ?_
  rw [List.map_map]
  exact able.functions

theorem Program.ofSourceEarly {source : String} {f : Failure} (failed : Program.ofSource source = .error f) :
    (∃ e, f = .lex e) ∨ ∃ e, f = .parse e := by
  cases lexed : tokenize source with
  | error e =>
    rw [unlexedProgram lexed] at failed
    cases failed
    exact .inl ⟨e, rfl⟩
  | ok tokens =>
    rw [lexedProgram lexed] at failed
    cases parsed : Program.ofTokens tokens with
    | error e =>
      rw [parsed] at failed
      cases failed
      exact .inr ⟨e, rfl⟩
    | ok p =>
      rw [parsed] at failed
      cases failed

theorem Executable.ofSourceUnrefused (source : String) (error : CompileError) :
    Executable.ofSource source ≠ .error (.compile error) := by
  intro failed
  cases read : Program.ofSource source with
  | error f =>
    rw [unreadExecutable read] at failed
    cases failed
    rcases Program.ofSourceEarly read with ⟨e, other⟩ | ⟨e, other⟩
    · cases other
    · cases other
  | ok p =>
    rw [readExecutable read] at failed
    cases checked : p.check with
    | error e =>
      rw [checked] at failed
      cases failed
    | ok u =>
      rw [checked, Program.compileChecked checked] at failed
      cases failed

theorem compileRefusals :
    (∀ p : Program,
      ((∃ x, p.compile = .ok x) ↔ (p.definitions.map Definition.name).Nodup ∧
        ∀ s ∈ p.statements, ∀ call ∈ s.expr.calls, ∃ name, call.1 = .var name) ∧
      (∀ x, p.compile = .ok x →
        (x.functions.entries.map fun entry => (entry.1, entry.2.params)).Perm
          (p.definitions.map fun d => (d.name, d.params))) ∧
      (p.check = .ok () → ∃ x, p.compile = .ok x)) ∧
    ∀ source error, Executable.ofSource source ≠ .error (.compile error) := by
  refine ⟨fun p => ⟨⟨?_, ?_⟩, fun x compiled => ?_, fun accepted => ?_⟩, Executable.ofSourceUnrefused⟩
  · rintro ⟨x, compiled⟩
    have able := Program.lowerableOfCompile compiled
    exact ⟨able.functions, able.calls⟩
  · rintro ⟨functions, calls⟩
    exact ⟨p.lowered, Program.compileLowerable ⟨functions, calls⟩⟩
  · have entries := Program.loweredEntries (Program.lowerableOfCompile compiled)
    rw [← Program.loweredOfCompile compiled] at entries
    simpa [Function.comp_def, Definition.lowered] using
      entries.map fun entry => (entry.1, entry.2.params)
  · exact ⟨p.lowered, Program.compileChecked accepted⟩

/-! Compiling an expression or a body fails in one way only. -/

namespace Expr

theorem emitAllUnsupported {params : List String} {args : List Expr}
    (each : ∀ arg ∈ args, ∀ d error, arg.emit params d = .error error → error = .unsupportedCallee)
    {d : Draft} {error : CompileError} (failed : emitAll params args d = .error error) :
    error = .unsupportedCallee := by
  induction args generalizing d with
  | nil => cases failed
  | cons e rest ih =>
    rw [emitAll] at failed
    rcases bindError failed with first | ⟨between, _, others⟩
    · exact each e List.mem_cons_self d error first
    · exact ih (fun arg mem => each arg (List.mem_cons_of_mem _ mem)) others

theorem emitUnsupported {params : List String} {e : Expr} {d : Draft} {error : CompileError}
    (failed : e.emit params d = .error error) : error = .unsupportedCallee := by
  induction e generalizing d error with
  | number value => cases failed
  | var name => cases failed
  | binary op left right ihLeft ihRight =>
    rw [emit] at failed
    rcases bindError failed with first | ⟨between, _, rest⟩
    · exact ihLeft first
    · rcases bindError rest with second | ⟨last, _, done⟩
      · exact ihRight second
      · cases done
  | call callee args _ ih =>
    cases callee with
    | var name =>
      rw [emit] at failed
      rcases bindError failed with inside | ⟨between, _, done⟩
      · exact emitAllUnsupported (fun arg mem _ _ => ih arg mem) inside
      · cases done
    | _ =>
      cases failed
      rfl

end Expr

theorem compileFunctionsUnsupported {statements : List Statement} {table : Bindings CodeObject}
    (fresh : table.Fresh ((Program.mk statements).definitions.map Definition.name))
    {error : CompileError} (failed : compileFunctions table statements = .error error) :
    error = .unsupportedCallee := by
  induction statements generalizing table with
  | nil => cases failed
  | cons s rest ih =>
    cases s with
    | assign name value => exact ih fresh failed
    | eval expr => exact ih fresh failed
    | define name params body =>
      rw [Program.definitionsDefine, List.map_cons] at fresh
      have absent : table.contains name = false := ((Bindings.freshCons ⟨[], #[], #[]⟩).mp fresh).1
      rw [compileFunctions, absent, if_neg Bool.false_ne_true] at failed
      rcases bindError failed with here | ⟨code, _, others⟩
      · rcases bindError here with inside | ⟨d, _, done⟩
        · exact Expr.emitUnsupported inside
        · cases done
      · exact ih ((Bindings.freshCons code).mp fresh).2 others

theorem emitStatementsUnsupported {statements : List Statement} {d : Draft} {error : CompileError}
    (failed : emitStatements statements d = .error error) : error = .unsupportedCallee := by
  induction statements generalizing d with
  | nil => cases failed
  | cons s rest ih =>
    cases s with
    | define name params body => exact ih failed
    | assign name value =>
      rcases bindError failed with here | ⟨between, _, others⟩
      · exact Expr.emitUnsupported here
      · exact ih others
    | eval expr =>
      rcases bindError failed with here | ⟨between, _, others⟩
      · exact Expr.emitUnsupported here
      · exact ih others

namespace Program

theorem compileUnsupported {p : Program} (distinct : (p.definitions.map Definition.name).Nodup)
    {error : CompileError} (failed : p.compile = .error error) : error = .unsupportedCallee := by
  rcases bindError failed with functions | ⟨table, _, rest⟩
  · -- with distinct names no definition meets an entry of the table
    exact compileFunctionsUnsupported (Bindings.freshEmpty.mpr distinct) functions
  · rcases bindError rest with main | ⟨d, _, done⟩
    · exact emitStatementsUnsupported main
    · cases done

def running (p : Program) : List Statement := p.statements.filter fun s => s.top?.isSome

theorem memRunning {p : Program} {s : Statement} :
    s ∈ p.running ↔ s ∈ p.statements ∧ s.top?.isSome = true := List.mem_filter

theorem lowerablePlaced {p q : Program} (able : p.Lowerable) (same : q.definitions.Perm p.definitions)
    (running : q.running = p.running) : q.Lowerable := by
  refine ⟨(same.map Definition.name).nodup_iff.mpr able.functions, fun s mem => ?_⟩
  cases s with
  | define name params body =>
    have defined : ⟨name, params, body⟩ ∈ p.definitions := same.mem_iff.mp (memDefinitions.mpr mem)
    exact able.calls _ (memDefinitions.mp defined)
  | _ =>
    have runs := memRunning.mpr ⟨mem, rfl⟩
    rw [running] at runs
    exact able.calls _ (memRunning.mp runs).1

end Program

theorem topLiteralsRunning (statements : List Statement) :
    statements.flatMap Statement.topLiterals =
      (Program.mk statements).running.flatMap Statement.topLiterals := by
  induction statements with
  | nil => rfl
  | cons s rest ih => cases s <;> exact congrArg (_ ++ ·) ih

theorem topCodeRunning (pool : Pool) (statements : List Statement) :
    topCode pool statements = topCode pool (Program.mk statements).running := by
  induction statements generalizing pool with
  | nil => rfl
  | cons s rest ih => cases s <;> exact congrArg (_ ++ ·) (ih _)

theorem Program.loweredPlaced {p q : Program} (able : p.Lowerable)
    (same : q.definitions.Perm p.definitions) (running : q.running = p.running) :
    q.lowered = p.lowered := by
  have entries := Program.loweredEntries (lowerablePlaced able same running)
  have table : q.lowered.functions = p.lowered.functions := Bindings.eqOfPerm
    (entries.trans ((same.map fun d => (d.name, d.lowered)).trans (loweredEntries able).symm))
  have literals : q.topLiterals = p.topLiterals := by
    rw [topLiterals, topLiterals, topLiteralsRunning, topLiteralsRunning p.statements]
    exact congrArg (List.flatMap Statement.topLiterals) running
  have code : topCode [] q.statements = topCode [] p.statements := by
    rw [topCodeRunning, topCodeRunning [] p.statements]
    exact congrArg (topCode []) running
  have main : q.lowered.main = p.lowered.main := by rw [lowered, lowered, literals, code]
  exact congrArg₂ Executable.mk main table

theorem placementKeepsCode {p q : Program} (distinct : (p.definitions.map Definition.name).Nodup)
    (same : q.definitions.Perm p.definitions) (running : q.running = p.running) :
    q.compile = p.compile ∧
      ∀ limit, q.compile.map (Executable.run · limit) = p.compile.map (Executable.run · limit) := by
  have compiled : q.compile = p.compile := by
    cases first : p.compile with
    | ok x =>
      have able := Program.lowerableOfCompile first
      rw [Program.compileLowerable (Program.lowerablePlaced able same running),
        Program.loweredPlaced able same running, Program.loweredOfCompile first]
    | error e =>
      have apart : (q.definitions.map Definition.name).Nodup :=
        (same.map Definition.name).nodup_iff.mpr distinct
      cases second : q.compile with
      | ok y =>
        have able := Program.lowerablePlaced (Program.lowerableOfCompile second) same.symm running.symm
        cases first.symm.trans (Program.compileLowerable able)
      | error f => rw [Program.compileUnsupported distinct first, Program.compileUnsupported apart second]
  exact ⟨compiled, fun limit => congrArg (Except.map _) compiled⟩

def nestedCallsMoved : Program :=
  ⟨[.define "g" ["a"] (.binary .sub (.call (.var "f") [.var "a"]) (.call (.var "f") [.number (.int 2)])),
    .assign "y" (.number (.int 3)),
    .assign "z" (.call (.var "g") [.call (.var "f") [.number (.int 1)]]),
    .define "f" ["x"] (.binary .mul (.var "x") (.var "y"))]⟩

theorem placementKeepsCodeMoved :
    (nestedCalls.definitions.map Definition.name).Nodup ∧
      nestedCallsMoved.definitions.Perm nestedCalls.definitions ∧
      nestedCallsMoved.running = nestedCalls.running ∧ nestedCalls.compile = .ok nestedCalls.lowered ∧
      nestedCallsMoved.compile = nestedCalls.compile ∧
      ∀ limit, nestedCallsMoved.compile.map (Executable.run · limit) =
        nestedCalls.compile.map (Executable.run · limit) := by
  have distinct : (nestedCalls.definitions.map Definition.name).Nodup := by decide
  have same : nestedCallsMoved.definitions.Perm nestedCalls.definitions := .swap _ _ []
  have compiled : nestedCalls.compile = .ok nestedCalls.lowered := by decide +kernel
  exact ⟨distinct, same, rfl, compiled, placementKeepsCode distinct same rfl⟩

end CalcLang
