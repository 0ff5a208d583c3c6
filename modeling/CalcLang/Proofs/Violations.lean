import CalcLang.Proofs.Checking

/-! What the checks report. The faults of a program are listed to the end, in the order in which
they are met; the checks stop at the first. Each check is shown to be the head of its own list, and
lists are joined where checks are sequenced, so the walk never has to be compared with the list as a
whole. -/
namespace CalcLang

def firstFault : List CheckError → Except CheckError Unit
  | [] => .ok ()
  | e :: _ => .error e

theorem firstFaultAppend (first others : List CheckError) :
    firstFault (first ++ others) = (firstFault first >>= fun _ => firstFault others) := by
  cases first <;> rfl

theorem firstFaultError {faults : List CheckError} {e : CheckError} :
    firstFault faults = .error e ↔ faults.head? = some e := by
  cases faults <;> simp [firstFault]

theorem firstFaultOk {faults : List CheckError} : firstFault faults = .ok () ↔ faults = [] := by
  cases faults <;> simp [firstFault]

namespace Expr

variable {signatures : Signatures} {scope : List String}

theorem checkAllFirst {args : List Expr}
    (each : ∀ arg ∈ args, arg.check signatures scope = firstFault (arg.violations signatures.get? scope)) :
    checkAll signatures scope args = firstFault (violationsOf signatures.get? scope args) := by
  induction args with
  | nil => rfl
  | cons e rest ih =>
    have head := each e List.mem_cons_self
    have tail := ih fun arg mem => each arg (List.mem_cons_of_mem e mem)
    rw [checkAll, violationsOf, firstFaultAppend, head, tail]

theorem checkFirst (e : Expr) :
    e.check signatures scope = firstFault (e.violations signatures.get? scope) := by
  induction e with
  | number value => rfl
  | var name =>
    unfold check violations
    split <;> rfl
  | binary op left right ihLeft ihRight =>
    rw [check, violations, firstFaultAppend, ihLeft, ihRight]
  | call callee args _ ih =>
    cases callee with
    | number value => rfl
    | binary op left right => rfl
    | call inner others => rfl
    | var name =>
      unfold check violations
      cases signatures.get? name with
      | none => rfl
      | some expected =>
        dsimp only
        split
        · exact checkAllFirst ih
        · rfl

end Expr

theorem repeatedFirst (seen params : List String) :
    repeated? seen params = (repetitions seen params).head? := by
  induction params generalizing seen with
  | nil => rfl
  | cons p rest ih =>
    unfold repeated? repetitions
    split
    · rfl
    · exact ih (p :: seen)

theorem checkStatementsFirst (signatures : Signatures) (globals : List String)
    (statements : List Statement) :
    checkStatements signatures globals statements =
      firstFault (statementViolations signatures.get? globals statements) := by
  induction statements generalizing globals with
  | nil => rfl
  | cons s rest ih =>
    cases s with
    | define name params body =>
      unfold checkStatements statementViolations
      rw [repeatedFirst, List.append_assoc]
      cases repetitions [] params with
      | nil =>
        rw [List.map_nil, List.nil_append, firstFaultAppend, ← Expr.checkFirst, ← ih]
        rfl
      | cons p others => rfl
    | assign name value =>
      rw [checkStatements, statementViolations, firstFaultAppend, ← Expr.checkFirst, ← ih]
    | eval expr =>
      rw [checkStatements, statementViolations, firstFaultAppend, ← Expr.checkFirst, ← ih]

theorem collectFirst {known : Signatures} {seen : List String}
    (same : ∀ name, known.contains name = true ↔ name ∈ seen) (statements : List Statement) :
    (Signatures.collect known statements >>= fun _ => .ok ()) =
      firstFault ((repetitions seen ((Program.mk statements).definitions.map Definition.name)).map
        .duplicateFunction) := by
  -- what is known is what has been seen, so a name is refused in both or in neither
  induction statements generalizing known seen with
  | nil => rfl
  | cons s rest ih =>
    cases s with
    | assign name value => exact ih same
    | eval expr => exact ih same
    | define name params body =>
      rw [Program.definitionsDefine, List.map_cons]
      unfold Signatures.collect repetitions
      by_cases known : name ∈ seen
      · rw [if_pos ((same name).mpr known), if_pos known]
        rfl
      · rw [if_neg fun found => known ((same name).mp found), if_neg known]
        refine ih fun other => ?_
        rw [Bindings.contains, Bindings.getInsert, List.mem_cons, ← same other, Bindings.contains]
        split <;> simp [*]

namespace Program

theorem arityFound {p : Program} (distinct : (p.definitions.map Definition.name).Nodup) (name : String) :
    p.signatures.get? name = p.arity? name := by
  rw [signatureOf, arity?]
  cases found : p.definitions.find? fun d => d.name = name with
  | some d =>
    have named : d.name = name := by simpa using List.find?_some found
    rw [← named, definedFunction distinct (List.mem_of_find?_eq_some found)]
  | none =>
    cases bound : p.functions.get? name with
    | none => rfl
    | some d =>
      obtain ⟨mem, named⟩ := functionDefined bound
      exact absurd named (by simpa using List.find?_eq_none.mp found d mem)

theorem checkViolations (p : Program) : p.check = firstFault p.violations := by
  have unknown (name : String) : (Bindings.empty : Signatures).contains name = true ↔ name ∈ [] := by
    simp [Bindings.contains]
  have collected := collectFirst unknown p.statements
  rw [violations, firstFaultAppend, ← collected, check]
  cases found : Signatures.collect .empty p.statements with
  | error e => rfl
  | ok signatures =>
    obtain ⟨fresh, rfl⟩ := collectOk.mp found
    have arity : p.signatures.get? = p.arity? := funext (arityFound (Bindings.freshEmpty.mp fresh))
    rw [← arity]
    exact checkStatementsFirst p.signatures [] p.statements

end Program

theorem checkReportsFirst (p : Program) :
    (∀ e, p.check = .error e ↔ p.violations.head? = some e) ∧ (p.violations = [] ↔ p.WellFormed) := by
  constructor
  · intro e
    rw [p.checkViolations, firstFaultError]
  · rw [← firstFaultOk, ← p.checkViolations]
    exact ⟨Program.wellFormedOfCheck, Program.checkOfWellFormed⟩

-- the second definition comes before the faults of all statements, a call before its arguments
example :
    (Program.mk [.eval (.call (.var "f") [.var "x"]), .define "f" ["a", "a"] (.var "b"),
      .define "f" [] (.number (.int 1))]).violations =
      [.duplicateFunction "f", .arityMismatch "f" 2 1, .undefinedVariable "x",
        .duplicateParameter "f" "a", .undefinedVariable "b"] := by
  decide

end CalcLang
