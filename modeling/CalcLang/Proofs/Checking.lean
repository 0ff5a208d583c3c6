import CalcLang.Proofs.Evaluation

/-! What it means that a program passes the checks. The checks walk the statements once and
remember what has been assigned; here they are read without the walk, as a condition on each
statement and those above it. The programs that pass are the well-formed ones. -/
namespace CalcLang

theorem collectOk {statements : List Statement} {known signatures : Signatures} :
    Signatures.collect known statements = .ok signatures ↔
      known.Fresh ((Program.mk statements).definitions.map Definition.name) ∧
        signatures = known.insertAll
          ((Program.mk statements).definitions.map fun d => (d.name, d.params.length)) := by
  induction statements generalizing known with
  | nil => simp [Signatures.collect, Bindings.Fresh, Bindings.insertAll, eq_comm]
  | cons s rest ih =>
    cases s with
    | assign name value => exact ih
    | eval expr => exact ih
    | define name params body =>
      rw [Program.definitionsDefine, List.map_cons, List.map_cons, Bindings.freshCons params.length,
        and_assoc, Signatures.collect]
      cases absent : known.contains name with
      | true => simp
      | false =>
        rw [if_neg Bool.false_ne_true, and_iff_right rfl]
        exact ih

namespace Program

def signatures (p : Program) : Signatures :=
  .ofPairs (p.definitions.map fun d => (d.name, d.params.length))

theorem signatureOf (p : Program) (name : String) :
    p.signatures.get? name = (p.functions.get? name).map fun d => d.params.length := by
  have found := Bindings.getOfPairsMap (fun d : Definition => d.params.length)
    (p.definitions.map fun d => (d.name, d)) name
  rw [List.map_map] at found
  exact found

end Program

namespace Expr

def Fits (signatures : Signatures) (callee : Expr) (args : List Expr) : Prop :=
  ∃ name, callee = .var name ∧ signatures.get? name = some args.length

theorem memReadsOf {args : List Expr} {name : String} :
    name ∈ readsOf args ↔ ∃ arg ∈ args, name ∈ arg.reads := by
  induction args with
  | nil => simp [readsOf]
  | cons e rest ih => simp [readsOf, ih]

theorem checkAllOk {signatures : Signatures} {scope : List String} {args : List Expr} :
    checkAll signatures scope args = .ok () ↔ ∀ arg ∈ args, arg.check signatures scope = .ok () := by
  induction args with
  | nil => simp [checkAll]
  | cons e rest ih => rw [checkAll, bothOk, List.forall_mem_cons, ih]

theorem checkOk {signatures : Signatures} {scope : List String} {e : Expr} :
    e.check signatures scope = .ok () ↔
      e.EachCall (Fits signatures) ∧ ∀ name ∈ e.reads, name ∈ scope := by
  induction e with
  | number value => simp [check, reads]
  | var name =>
    simp only [check, reads, List.forall_mem_singleton, eachCallVar, true_and]
    split <;> simp_all
  | binary op left right ihLeft ihRight =>
    rw [check, bothOk, ihLeft, ihRight, eachCallBinary, reads, List.forall_mem_append]
    exact and_and_and_comm
  | call callee args _ ih =>
    cases callee with
    | number value => simp [check, Fits]
    | binary op left right => simp [check, Fits]
    | call inner others => simp [check, Fits]
    | var name =>
      have all : (∀ arg ∈ args, arg.check signatures scope = .ok ()) ↔
          (∀ arg ∈ args, arg.EachCall (Fits signatures)) ∧ ∀ read ∈ readsOf args, read ∈ scope := by
        constructor
        · intro each
          refine ⟨fun arg mem => ((ih arg mem).mp (each arg mem)).1, fun read inside => ?_⟩
          obtain ⟨arg, mem, inside⟩ := memReadsOf.mp inside
          exact ((ih arg mem).mp (each arg mem)).2 read inside
        · rintro ⟨each, inScope⟩ arg mem
          exact (ih arg mem).mpr ⟨each arg mem, fun read inside =>
            inScope read (memReadsOf.mpr ⟨arg, mem, inside⟩)⟩
      rw [eachCallCall, check, reads]
      cases found : signatures.get? name with
      | none => simp [Fits, found]
      | some expected =>
        dsimp only
        split
        · rename_i same
          rw [checkAllOk, all]
          simp [Fits, found, same]
        · rename_i different
          simp [Fits, found, Ne.symm different]

end Expr

theorem repeatedNone {seen params : List String} :
    repeated? seen params = none ↔ params.Nodup ∧ ∀ p ∈ params, p ∉ seen := by
  induction params generalizing seen with
  | nil => simp [repeated?]
  | cons p rest ih =>
    unfold repeated?
    split
    · rename_i known
      simp [known]
    · rename_i fresh
      rw [ih]
      simp only [List.nodup_cons, List.mem_cons, not_or, forall_eq_or_imp]
      constructor
      · intro later
        obtain ⟨distinct, apart⟩ := later
        exact ⟨⟨fun mem => (apart p mem).1 rfl, distinct⟩, fresh, fun q mem => (apart q mem).2⟩
      · intro all
        obtain ⟨⟨own, distinct⟩, _, apart⟩ := all
        exact ⟨distinct, fun q mem => ⟨fun same => own (same ▸ mem), apart q mem⟩⟩

theorem memAssigned {p : Program} {name : String} :
    name ∈ p.assigned ↔ ∃ value, .assign name value ∈ p.statements := by
  rw [Program.assigned, List.mem_filterMap]
  constructor
  · rintro ⟨s, mem, same⟩
    cases s with
    | assign other value =>
      cases same
      exact ⟨value, mem⟩
    | define => cases same
    | eval => cases same
  · rintro ⟨value, mem⟩
    exact ⟨_, mem, rfl⟩

/-- What the checks ask of a statement below the given ones, when `globals` are assigned from
the start. -/
structure Statement.Admitted (signatures : Signatures) (globals : List String)
    (before : List Statement) (s : Statement) : Prop where
  parameters : s.params.Nodup
  calls : s.expr.EachCall (Expr.Fits signatures)
  reads : ∀ name ∈ s.expr.reads,
    name ∈ s.params ∨ name ∈ globals ∨ name ∈ (Program.mk before).assigned

namespace Statement

variable {signatures : Signatures} {globals : List String} {before : List Statement} {s t : Statement}

theorem admittedCheck :
    s.Admitted signatures globals [] ↔
      s.params.Nodup ∧ s.expr.check signatures (s.params ++ globals) = .ok () := by
  rw [Expr.checkOk]
  have scope (name : String) : (name ∈ s.params ∨ name ∈ globals ∨ name ∈ (Program.mk []).assigned) ↔
      name ∈ s.params ++ globals := by
    simp [Program.assigned]
  constructor
  · intro admitted
    exact ⟨admitted.parameters, admitted.calls,
      fun name read => (scope name).mp (admitted.reads name read)⟩
  · intro checked
    obtain ⟨parameters, calls, reads⟩ := checked
    exact ⟨parameters, calls, fun name read => (scope name).mpr (reads name read)⟩

theorem admittedBelow :
    s.Admitted signatures ((Program.mk [t]).assigned ++ globals) before ↔
      s.Admitted signatures globals (t :: before) := by
  have scope (name : String) : (name ∈ (Program.mk [t]).assigned ++ globals ∨
      name ∈ (Program.mk before).assigned) ↔
        (name ∈ globals ∨ name ∈ (Program.mk (t :: before)).assigned) := by
    simp only [memAssigned, List.mem_append, List.mem_cons, List.not_mem_nil, or_false, exists_or]
    exact or_right_comm.trans or_comm
  constructor
  · intro admitted
    exact ⟨admitted.parameters, admitted.calls,
      fun name read => (admitted.reads name read).imp_right (scope name).mp⟩
  · intro admitted
    exact ⟨admitted.parameters, admitted.calls,
      fun name read => (admitted.reads name read).imp_right (scope name).mpr⟩

end Statement

theorem checkStatementsCons {signatures : Signatures} {globals : List String} {s : Statement}
    {rest : List Statement} :
    checkStatements signatures globals (s :: rest) = .ok () ↔
      s.Admitted signatures globals [] ∧
        checkStatements signatures ((Program.mk [s]).assigned ++ globals) rest = .ok () := by
  rw [Statement.admittedCheck, and_assoc]
  cases s with
  | define name params body =>
    rw [checkStatements]
    cases known : repeated? [] params with
    | some p =>
      have twice : ¬ params.Nodup := by
        intro distinct
        rw [repeatedNone.mpr ⟨distinct, by simp⟩] at known
        cases known
      simp [Statement.params, twice]
    | none =>
      have distinct : params.Nodup := (repeatedNone.mp known).1
      exact bothOk.trans (and_iff_right distinct).symm
  | assign name value => exact bothOk.trans (and_iff_right List.nodup_nil).symm
  | eval expr => exact bothOk.trans (and_iff_right List.nodup_nil).symm

theorem checkStatementsOk {signatures : Signatures} {globals : List String}
    {statements : List Statement} :
    checkStatements signatures globals statements = .ok () ↔
      ∀ before s after, statements = before ++ s :: after → s.Admitted signatures globals before := by
  induction statements generalizing globals with
  | nil => simp [checkStatements]
  | cons t rest ih =>
    rw [checkStatementsCons, ih]
    constructor
    · intro both before s after split
      obtain ⟨first, others⟩ := both
      cases before with
      | nil =>
        cases split
        exact first
      | cons head more =>
        cases split
        exact Statement.admittedBelow.mp (others more s after rfl)
    · intro all
      refine ⟨all [] t rest rfl, fun before s after split => Statement.admittedBelow.mpr ?_⟩
      exact all (t :: before) s after (by rw [split, List.cons_append])

namespace Program

theorem checkedProgram {p : Program} :
    p.check = .ok () ↔ (p.definitions.map Definition.name).Nodup ∧
      ∀ before s after, p.statements = before ++ s :: after → s.Admitted p.signatures [] before := by
  rw [← checkStatementsOk]
  constructor
  · intro accepted
    obtain ⟨signatures, collected, checked⟩ := bindOk accepted
    obtain ⟨fresh, rfl⟩ := collectOk.mp collected
    exact ⟨Bindings.freshEmpty.mp fresh, checked⟩
  · intro both
    obtain ⟨distinct, checked⟩ := both
    have collected : Signatures.collect .empty p.statements = .ok p.signatures :=
      collectOk.mpr ⟨Bindings.freshEmpty.mpr distinct, rfl⟩
    rw [check, collected]
    exact checked

theorem fitsFunction {p : Program} {callee : Expr} {args : List Expr} :
    Expr.Fits p.signatures callee args ↔ ∃ name d, callee = .var name ∧
      p.functions.get? name = some d ∧ d.params.length = args.length := by
  simp only [Expr.Fits, signatureOf, Option.map_eq_some_iff, exists_and_left]

theorem callsFit {p : Program} (accepted : p.check = .ok ()) {s : Statement} (mem : s ∈ p.statements) :
    s.expr.EachCall fun callee args => ∃ name d, callee = .var name ∧
      p.functions.get? name = some d ∧ d.params.length = args.length := by
  obtain ⟨before, after, split⟩ := List.append_of_mem mem
  have admitted := (checkedProgram.mp accepted).2 before s after split
  exact admitted.calls.mono fun callee args => fitsFunction.mp

theorem readsAssigned {p : Program} (accepted : p.check = .ok ()) {before after : List Statement}
    {s : Statement} (split : p.statements = before ++ s :: after) {name : String}
    (read : name ∈ s.expr.reads) : name ∈ s.params ∨ ∃ value, .assign name value ∈ before := by
  have admitted := (checkedProgram.mp accepted).2 before s after split
  rcases admitted.reads name read with param | global | assigned
  · exact .inl param
  · cases global
  · exact .inr (memAssigned.mp assigned)

theorem assignedAbove {before after : List Statement} {name : String} :
    (∃ value, .assign name value ∈ before) ↔
      ∃ j < before.length, ∃ value, (before ++ after)[j]? = some (.assign name value) := by
  constructor
  · intro assigned
    obtain ⟨value, mem⟩ := assigned
    obtain ⟨j, inside, same⟩ := List.getElem_of_mem mem
    refine ⟨j, inside, value, ?_⟩
    rw [List.getElem?_append_left inside, List.getElem?_eq_getElem inside, same]
  · intro above
    obtain ⟨j, inside, value, same⟩ := above
    rw [List.getElem?_append_left inside] at same
    exact ⟨value, List.mem_of_getElem? same⟩

theorem splitAt {statements : List Statement} {i : Nat} {s : Statement}
    (here : statements[i]? = some s) :
    ∃ before after, statements = before ++ s :: after ∧ before.length = i := by
  obtain ⟨inside, same⟩ := List.getElem?_eq_some_iff.mp here
  refine ⟨statements.take i, statements.drop (i + 1), ?_, by rw [List.length_take]; omega⟩
  rw [← same, ← List.drop_eq_getElem_cons inside, List.take_append_drop]

theorem wellFormedOfCheck {p : Program} (accepted : p.check = .ok ()) : p.WellFormed := by
  obtain ⟨distinct, admitted⟩ := checkedProgram.mp accepted
  refine ⟨distinct, fun d mem => ?_, fun s mem c inside => ?_, fun i s here name read => ?_⟩
  · obtain ⟨before, after, split⟩ := List.append_of_mem (memDefinitions.mp mem)
    exact (admitted before _ after split).parameters
  · obtain ⟨name, d, callee, found, arity⟩ := callsFit accepted mem c inside
    obtain ⟨defined, same⟩ := functionDefined found
    exact ⟨name, callee, d, defined, same, arity⟩
  · obtain ⟨before, after, split, rfl⟩ := splitAt here
    rw [split]
    exact (readsAssigned accepted split read).imp_right assignedAbove.mp

theorem checkOfWellFormed {p : Program} (formed : p.WellFormed) : p.check = .ok () := by
  refine checkedProgram.mpr ⟨formed.functions, fun before s after split => ?_⟩
  have mem : s ∈ p.statements := by rw [split]; simp
  refine ⟨?_, fun c inside => ?_, fun name read => ?_⟩
  · cases s with
    | define name params body =>
      exact formed.parameters ⟨name, params, body⟩ (memDefinitions.mpr mem)
    | assign name value => exact List.nodup_nil
    | eval expr => exact List.nodup_nil
  · -- definitions have different names, so the one that fits is the one that is called
    obtain ⟨name, callee, d, defined, rfl, arity⟩ := formed.calls s mem c inside
    exact fitsFunction.mpr ⟨d.name, d, callee, definedFunction formed.functions defined, arity⟩
  · have here : p.statements[before.length]? = some s := by rw [split]; simp
    rcases formed.reads before.length s here name read with param | above
    · exact .inl param
    · rw [split] at above
      exact .inr (.inr (memAssigned.mpr (assignedAbove.mpr above)))

instance (p : Program) : Decidable p.WellFormed :=
  decidable_of_iff (p.check = .ok ()) ⟨wellFormedOfCheck, checkOfWellFormed⟩

end Program

theorem checkDecidesWellFormed (p : Program) : p.check = .ok () ↔ p.WellFormed :=
  ⟨Program.wellFormedOfCheck, Program.checkOfWellFormed⟩

-- a call may stand above the definition, a read not above or inside the assignment
example : (Program.mk [.eval (.call (.var "f") []), .define "f" [] (.number (.int 1))]).WellFormed ∧
    ¬ (Program.mk [.assign "x" (.var "x")]).WellFormed := by
  decide

end CalcLang
