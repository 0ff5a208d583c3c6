import CalcLang.Proofs.Soundness
import CalcLang.Tree.Exact
import Mathlib.Data.List.Forall2

/-! Integer programs against the unbounded integers. A run carries the exact numbers as long
as every operation fits, and stops at the first one that does not; so what it has stored is
exact, and the error it reports names the operation that first left the range. -/
namespace CalcLang

open Value (InRange)

def Value.Is (v : Value) (n : Int) : Prop := ∃ i, v = .int i ∧ i.toInt = n

def IntegerOperation.Fits (o : IntegerOperation) : Prop := InRange o.result

instance (o : IntegerOperation) : Decidable o.Fits := inferInstanceAs (Decidable (InRange _))

def Matches (values : Bindings Value) (numbers : Bindings Int) : Prop :=
  ∀ name, Option.Rel Value.Is (values.get? name) (numbers.get? name)

namespace Matches

variable {values : Bindings Value} {numbers : Bindings Int}

theorem empty : Matches .empty .empty := fun _ => .none

theorem insert (same : Matches values numbers) (name : String) {v : Value} {n : Int} (is : v.Is n) :
    Matches (values.insert name v) (numbers.insert name n) := by
  intro other
  rw [Bindings.getInsert, Bindings.getInsert]
  split
  · exact .some is
  · exact same other

theorem insertAll (same : Matches values numbers) (names : List String) {vs : List Value}
    {ns : List Int} (each : List.Forall₂ Value.Is vs ns) :
    Matches (values.insertAll (names.zip vs)) (numbers.insertAll (names.zip ns)) := by
  induction each generalizing names values numbers with
  | nil =>
    rw [List.zip_nil_right, List.zip_nil_right]
    exact same
  | cons is _ ih =>
    cases names with
    | nil => exact same
    | cons name names => exact ih (same.insert name is) names

theorem ofZip (names : List String) {vs : List Value} {ns : List Int}
    (each : List.Forall₂ Value.Is vs ns) :
    Matches (.ofPairs (names.zip vs)) (.ofPairs (names.zip ns)) := insertAll empty names each

theorem read {locals : Bindings Value} {exactLocals : Bindings Int} (inner : Matches locals exactLocals)
    (outer : Matches values numbers) (name : String) :
    Option.Rel Value.Is ((locals.get? name).or (values.get? name))
      ((exactLocals.get? name).or (numbers.get? name)) := by
  have here := inner name
  generalize locals.get? name = v at here
  generalize exactLocals.get? name = n at here
  cases here with
  | some is => exact .some is
  | none => exact outer name

end Matches

/-- A result against the exact one: they agree while all operations fit, and an operation that
does not fit is reported in its place. -/
inductive Tracks {α β : Type} (related : α → β → Prop) : Except RunError α → Exact β → Prop
  | returned {operations a b} (fit : ∀ o ∈ operations, o.Fits) (same : related a b) :
      Tracks related (.ok a) ⟨operations, .ok b⟩
  | failed {operations e} (fit : ∀ o ∈ operations, o.Fits) (other : ∀ o, e ≠ .overflow o) :
      Tracks related (.error e) ⟨operations, .error (.error e)⟩
  | overflowed {before o after result} (fit : ∀ o ∈ before, o.Fits) (beyond : ¬ o.Fits) :
      Tracks related (.error (.overflow o.kind)) ⟨before ++ o :: after, result⟩

namespace Tracks

variable {α β γ δ : Type} {related : α → β → Prop} {next : γ → δ → Prop}

theorem done {a : α} {b : β} (same : related a b) : Tracks related (.ok a) (.done b) :=
  .returned (by simp) same

theorem stopped {e : RunError} (other : ∀ o, e ≠ .overflow o) :
    Tracks related (.error e) (.failed e) := .failed (by simp) other

theorem after {ran : Except RunError α} {exact : Exact β} (tracks : Tracks related ran exact)
    {earlier : List IntegerOperation} (fit : ∀ o ∈ earlier, o.Fits) :
    Tracks related ran (exact.after earlier) := by
  cases tracks with
  | returned later same => exact .returned (List.forall_mem_append.mpr ⟨fit, later⟩) same
  | failed later other => exact .failed (List.forall_mem_append.mpr ⟨fit, later⟩) other
  | overflowed later beyond =>
    rw [Exact.after, ← List.append_assoc]
    exact .overflowed (List.forall_mem_append.mpr ⟨fit, later⟩) beyond

theorem bind {ran : Except RunError α} {exact : Exact β} {k : α → Except RunError γ}
    {l : β → Exact δ} (first : Tracks related ran exact)
    (later : ∀ a b, related a b → Tracks next (k a) (l b)) : Tracks next (ran >>= k) (exact.bind l) := by
  cases first with
  | returned fit same => exact (later _ _ same).after fit
  | failed fit other => exact .failed fit other
  | @overflowed before o rest result fit beyond =>
    -- the exact side may go on, but the operation that is reported stays the first
    cases result with
    | error stop => exact .overflowed fit beyond
    | ok b =>
      simp only [Exact.bind, Exact.after, List.append_assoc, List.cons_append]
      exact .overflowed fit beyond

theorem firstBeyond {kind : Overflow} {exact : Exact β}
    (tracks : Tracks related (.error (.overflow kind)) exact) :
    ∃ before o after, exact.operations = before ++ o :: after ∧ (∀ e ∈ before, e.Fits) ∧
      ¬ o.Fits ∧ o.kind = kind := by
  cases tracks with
  | failed _ other => exact absurd rfl (other kind)
  | overflowed fit beyond => exact ⟨_, _, _, rfl, fit, beyond, rfl⟩

end Tracks

theorem ofExactTracks (kind : Overflow) (n : Int) :
    Tracks Value.Is ((Value.ofExact kind n).mapError .overflow) (.carryOut kind n) := by
  unfold Value.ofExact
  split
  · rename_i inRange
    have below : n < 9223372036854775808 := Int.lt_of_le_of_lt inRange.2 (by decide)
    refine .returned (List.forall_mem_singleton.mpr inRange) ⟨Int64.ofInt n, rfl, ?_⟩
    exact Int64.toInt_ofInt_of_le inRange.1 below
  · rename_i beyond
    exact .overflowed (List.forall_mem_nil _) (o := ⟨kind, n⟩) beyond

theorem applyTracks {a b : Value} {m n : Int} (left : a.Is m) (right : b.Is n) {op : Operator}
    (noDiv : op ≠ .div) (noPow : op ≠ .pow) :
    Tracks Value.Is ((a.apply op b).mapError .overflow) (op.exact m n) := by
  obtain ⟨i, rfl, rfl⟩ := left
  obtain ⟨j, rfl, rfl⟩ := right
  cases op with
  | add => exact ofExactTracks .addition (i.toInt + j.toInt)
  | sub => exact ofExactTracks .subtraction (i.toInt - j.toInt)
  | mul => exact ofExactTracks .multiplication (i.toInt * j.toInt)
  | div => exact absurd rfl noDiv
  | pow => exact absurd rfl noPow

namespace Expr

variable {functions : Bindings Definition} {globals : Globals} {exactGlobals : Bindings Int}
  {limit depth : Nat}

theorem allIntegralMem {args : List Expr} (integral : allIntegral args = true) :
    ∀ arg ∈ args, arg.isIntegral = true := by
  induction args with
  | nil => simp
  | cons e rest ih =>
    rw [allIntegral, Bool.and_eq_true] at integral
    exact List.forall_mem_cons.mpr ⟨integral.1, ih integral.2⟩

theorem evaluateAllTracks {args : List Expr} {locals : Bindings Value} {exactLocals : Bindings Int}
    (each : ∀ arg ∈ args, Tracks Value.Is (arg.evaluate functions globals limit depth locals)
      (arg.evaluateExact functions exactGlobals limit depth exactLocals)) :
    Tracks (List.Forall₂ Value.Is) (evaluateAll functions globals limit depth locals args)
      (evaluateAllExact functions exactGlobals limit depth exactLocals args) := by
  induction args with
  | nil =>
    rw [evaluateAll, evaluateAllExact]
    exact .done .nil
  | cons e rest ih =>
    obtain ⟨first, others⟩ := List.forall_mem_cons.mp each
    rw [evaluateAll, evaluateAllExact]
    exact first.bind fun v n is => (ih others).bind fun vs ns all => .done (.cons is all)

theorem evaluateTracks (outer : Matches globals exactGlobals)
    (bodies : ∀ name d, functions.get? name = some d → d.body.isIntegral = true) {e : Expr}
    (integral : e.isIntegral = true) {locals : Bindings Value} {exactLocals : Bindings Int}
    (inner : Matches locals exactLocals) :
    Tracks Value.Is (e.evaluate functions globals limit depth locals)
      (e.evaluateExact functions exactGlobals limit depth exactLocals) := by
  induction depth, e using inductionByDepth functions limit generalizing locals exactLocals with
  | number depth value =>
    rw [evaluate, evaluateExact]
    cases value with
    | int n => exact .done ⟨n, rfl, rfl⟩
    | float x => cases integral
  | var depth name =>
    rw [evaluate, evaluateExact]
    have read := inner.read outer name
    generalize (locals.get? name).or (globals.get? name) = v at read
    generalize (exactLocals.get? name).or (exactGlobals.get? name) = n at read
    cases read with
    | some is => exact .done is
    | none => exact .stopped (by simp)
  | binary depth op left right ihLeft ihRight =>
    simp only [isIntegral, Bool.and_eq_true, decide_eq_true_eq] at integral
    obtain ⟨⟨⟨noDiv, noPow⟩, first⟩, second⟩ := integral
    rw [evaluate, evaluateExact]
    exact (ihLeft first inner).bind fun a m left => (ihRight second inner).bind fun b n right =>
      applyTracks left right noDiv noPow
  | call depth callee args ih deeper =>
    rw [isIntegral, Bool.and_eq_true] at integral
    cases callee with
    | var name =>
      rw [evaluate, evaluateExact]
      have all := evaluateAllTracks fun arg mem => ih arg mem (allIntegralMem integral.2 arg mem) inner
      refine all.bind fun vs ns each => ?_
      cases found : functions.get? name with
      | none => exact .stopped (by simp)
      | some d =>
        dsimp only
        split
        · exact .stopped (by simp)
        · split
          · exact .stopped (by simp)
          · exact deeper name d found (by omega) (bodies name d found) (.ofZip d.params each)
    | _ =>
      rw [evaluate, evaluateExact]
      · exact .stopped (by simp)
      · simp
      · simp

end Expr

theorem Statement.effectTracks {functions : Bindings Definition} {limit : Nat} {globals : Globals}
    {exactGlobals : Bindings Int} (outer : Matches globals exactGlobals)
    (bodies : ∀ name d, functions.get? name = some d → d.body.isIntegral = true) {s : Statement}
    (integral : s.expr.isIntegral = true) :
    Tracks Matches (s.effect functions limit globals) (s.effectExact functions limit exactGlobals) := by
  cases s with
  | define name params body => exact .done outer
  | assign name value =>
    exact (Expr.evaluateTracks outer bodies integral .empty).bind fun v n is => .done (outer.insert name is)
  | eval expr =>
    exact (Expr.evaluateTracks outer bodies integral .empty).bind fun _ _ _ => .done outer

section Statements

variable {functions : Bindings Definition} {limit : Nat}

theorem evaluateExactAppend (numbers : Bindings Int) (before rest : List Statement)
    (done : (evaluateStatementsExact functions limit numbers before).result = .ok ()) :
    (evaluateStatementsExact functions limit numbers (before ++ rest)).operations =
      (evaluateStatementsExact functions limit numbers before).operations ++
        (evaluateStatementsExact functions limit
          (evaluateStatementsExact functions limit numbers before).globals rest).operations := by
  induction before generalizing numbers with
  | nil => rfl
  | cons s others ih =>
    cases ran : (s.effectExact functions limit numbers).result with
    | error stop =>
      simp only [evaluateStatementsExact, ran] at done
      cases done
    | ok next =>
      simp only [List.cons_append, evaluateStatementsExact, ran] at done ⊢
      rw [ih next done, List.append_assoc]

theorem evaluateExactHead (numbers : Bindings Int) (s : Statement) (rest : List Statement) :
    (s.effectExact functions limit numbers).operations <+:
      (evaluateStatementsExact functions limit numbers (s :: rest)).operations := by
  cases ran : (s.effectExact functions limit numbers).result with
  | error stop =>
    simp only [evaluateStatementsExact, ran]
    exact List.prefix_refl _
  | ok next =>
    simp only [evaluateStatementsExact, ran]
    exact List.prefix_append _ _

variable (bodies : ∀ name d, functions.get? name = some d → d.body.isIntegral = true)
include bodies

theorem completedExact {statements : List Statement}
    (integral : ∀ s ∈ statements, s.expr.isIntegral = true) {globals final : Globals}
    {numbers : Bindings Int} (start : Matches globals numbers) {value : Option Value}
    (done : evaluateStatements functions limit globals statements = ⟨.ok value, final⟩) :
    (evaluateStatementsExact functions limit numbers statements).result = .ok () ∧
      (∀ o ∈ (evaluateStatementsExact functions limit numbers statements).operations, o.Fits) ∧
      Matches final (evaluateStatementsExact functions limit numbers statements).globals := by
  induction statements generalizing globals numbers with
  | nil =>
    cases done
    exact ⟨rfl, List.forall_mem_nil _, start⟩
  | cons s rest ih =>
    obtain ⟨first, others⟩ := List.forall_mem_cons.mp integral
    have tracks : Tracks Matches (s.effect functions limit globals)
        (s.effectExact functions limit numbers) := Statement.effectTracks start bodies first
    rw [evaluateStatementsCons] at done
    rw [evaluateStatementsExact]
    generalize s.effect functions limit globals = ran at tracks done
    generalize s.effectExact functions limit numbers = exact at tracks ⊢
    cases tracks with
    | failed => cases done
    | overflowed => cases done
    | returned fit same =>
      obtain ⟨ended, fits, equal⟩ := ih others same done
      exact ⟨ended, List.forall_mem_append.mpr ⟨fit, fits⟩, equal⟩

theorem overflowExact {statements : List Statement}
    (integral : ∀ s ∈ statements, s.expr.isIntegral = true) {globals : Globals}
    {numbers : Bindings Int} (start : Matches globals numbers) {kind : Overflow}
    (failed : (evaluateStatements functions limit globals statements).result = .error (.overflow kind)) :
    ∃ before s after done own o later, statements = before ++ s :: after ∧
      evaluateStatementsExact functions limit numbers before = done ∧ done.result = .ok () ∧
      Matches (evaluateStatements functions limit globals statements).globals done.globals ∧
      own ++ [o] <+: (s.effectExact functions limit done.globals).operations ∧
      (evaluateStatementsExact functions limit numbers statements).operations =
        done.operations ++ own ++ o :: later ∧
      (∀ e ∈ done.operations ++ own, e.Fits) ∧ ¬ o.Fits ∧ o.kind = kind := by
  obtain ⟨before, s, after, middle, rfl, ran, failed⟩ := evaluateStatementsError failed
  obtain ⟨first, others⟩ := List.forall_mem_append.mp integral
  obtain ⟨done, fits, same⟩ := completedExact bodies first start ran
  have tracks : Tracks Matches (s.effect functions limit middle) (s.effectExact functions limit _) :=
    Statement.effectTracks same bodies (List.forall_mem_cons.mp others).1
  rw [failed] at tracks
  obtain ⟨own, o, rest, spelled, fit, beyond, kindEq⟩ := tracks.firstBeyond
  have whole := evaluateExactAppend numbers before (s :: after) done
  obtain ⟨behind, head⟩ := evaluateExactHead
    (evaluateStatementsExact functions limit numbers before).globals s after
  rw [evaluateStatementsStopped ran failed]
  refine ⟨before, s, after, _, own, o, rest ++ behind, rfl, rfl, done, same, ⟨rest, ?_⟩, ?_,
    List.forall_mem_append.mpr ⟨fits, fit⟩, beyond, kindEq⟩
  · rw [spelled, List.append_assoc, List.singleton_append]
  · rw [whole, ← head, spelled]
    simp only [List.append_assoc, List.cons_append]

end Statements

def Program.isIntegral (p : Program) : Bool := p.statements.all (·.expr.isIntegral)

theorem Expr.literalsInteger {e : Expr} (integral : e.isIntegral = true) :
    ∀ v ∈ e.literals, ∃ n, v = .int n := by
  induction e with
  | number value =>
    cases value with
    | int n => exact List.forall_mem_singleton.mpr ⟨n, rfl⟩
    | float x => cases integral
  | var name => exact List.forall_mem_nil _
  | binary op left right ihLeft ihRight =>
    simp only [isIntegral, Bool.and_eq_true] at integral
    exact List.forall_mem_append.mpr ⟨ihLeft integral.1.2, ihRight integral.2⟩
  | call callee args ihCallee ih =>
    rw [isIntegral, Bool.and_eq_true] at integral
    have each := allIntegralMem integral.2
    refine List.forall_mem_append.mpr ⟨ihCallee integral.1, fun v mem => ?_⟩
    obtain ⟨arg, member, inside⟩ := memLiteralsOf.mp mem
    exact ih arg member (each arg member) v inside

theorem Value.integersCoherent {values : List Value} (integers : ∀ v ∈ values, ∃ n, v = .int n) :
    Value.Coherent values := by
  intro a memA b memB agrees
  obtain ⟨m, rfl⟩ := integers a memA
  obtain ⟨n, rfl⟩ := integers b memB
  rw [eq_of_beq agrees]

namespace Program

variable {p : Program} (integral : p.isIntegral = true)
include integral

theorem integralStatement : ∀ s ∈ p.statements, s.expr.isIntegral = true :=
  List.all_eq_true.mp integral

theorem integralBody (name : String) (d : Definition) (found : p.functions.get? name = some d) :
    d.body.isIntegral = true :=
  integralStatement integral _ (memDefinitions.mp (functionDefined found).1)

theorem integralCoherent : p.CoherentLiterals := by
  refine ⟨fun d mem => ?_, Value.integersCoherent fun v mem => ?_⟩
  · have body := integralStatement integral _ (memDefinitions.mp mem)
    exact Value.integersCoherent (Expr.literalsInteger body)
  · obtain ⟨s, member, inside⟩ := List.mem_flatMap.mp mem
    refine Expr.literalsInteger (integralStatement integral s member) v ?_
    cases s with
    | define name params body => cases inside
    | assign name value => exact inside
    | eval expr => exact inside

end Program

theorem overflowNeverSilent {p : Program} (accepted : p.check = .ok ()) (integral : p.isIntegral = true) :
    ∃ x, p.compile = .ok x ∧ ∀ limit,
      (∀ value, (x.run limit).result = .ok value →
        (p.evaluateExact limit).result = .ok () ∧
          (∀ o ∈ (p.evaluateExact limit).operations, InRange o.result) ∧
          Matches (x.run limit).globals (p.evaluateExact limit).globals) ∧
      ∀ kind, (x.run limit).result = .error (.overflow kind) →
        ∃ before s after done own o later, p.statements = before ++ s :: after ∧
          evaluateStatementsExact p.functions limit .empty before = done ∧ done.result = .ok () ∧
          Matches (x.run limit).globals done.globals ∧
          own ++ [o] <+: (s.effectExact p.functions limit done.globals).operations ∧
          (p.evaluateExact limit).operations = done.operations ++ own ++ o :: later ∧
          (∀ e ∈ done.operations ++ own, InRange e.result) ∧ ¬ InRange o.result ∧ o.kind = kind := by
  have compiled := Program.compileLowerable (Program.lowerableOfCheck accepted)
  have bodies := Program.integralBody integral
  have statements := Program.integralStatement integral
  refine ⟨p.lowered, compiled, fun limit => ?_⟩
  rw [Program.runPooled compiled, Program.pooledCoherent (Program.integralCoherent integral)]
  refine ⟨fun value done => ?_, fun kind failed => ?_⟩
  · have ended : p.evaluate limit = ⟨.ok value, (p.evaluate limit).globals⟩ := by rw [← done]
    exact completedExact bodies statements .empty ended
  · exact overflowExact bodies statements .empty failed

def nearRange : Program :=
  ⟨[.assign "x" (.binary .sub (.binary .sub (.number (.int 0)) (.number (.int 9223372036854775807)))
      (.number (.int 1))),
    .define "f" ["a", "b"] (.binary .add (.binary .mul (.var "a") (.var "b")) (.var "x")),
    .assign "y" (.call (.var "f") [.number (.int 3037000499), .number (.int 3037000499)])]⟩

def beyondRange : Program :=
  ⟨nearRange.statements ++
    [.assign "z" (.binary .sub
      (.binary .mul (.var "x") (.binary .sub (.number (.int 0)) (.number (.int 1))))
      (.binary .add (.number (.int 9223372036854775807)) (.number (.int 1))))]⟩

theorem overflowNeverSilentNear :
    nearRange.check = .ok () ∧ nearRange.isIntegral = true ∧
      (nearRange.lowered.run 1).globals.get? "x" = some (.int (-9223372036854775808)) ∧
      Matches (nearRange.lowered.run 1).globals (nearRange.evaluateExact 1).globals ∧
      beyondRange.check = .ok () ∧ beyondRange.isIntegral = true ∧
      (beyondRange.lowered.run 1).result = .error (.overflow .multiplication) ∧
      ∃ earlier o later, (beyondRange.evaluateExact 1).operations = earlier ++ o :: later ∧
        (∀ e ∈ earlier, InRange e.result) ∧ ¬ InRange o.result ∧ o.kind = .multiplication := by
  have near : nearRange.check = .ok () ∧ nearRange.isIntegral = true := by decide
  have beyond : beyondRange.check = .ok () ∧ beyondRange.isIntegral = true := by decide
  have ended : (nearRange.lowered.run 1).result = .ok none := by decide +kernel
  have failed : (beyondRange.lowered.run 1).result = .error (.overflow .multiplication) := by
    decide +kernel
  obtain ⟨x, compiled, fits⟩ := overflowNeverSilent near.1 near.2
  obtain rfl := Program.loweredOfCompile compiled
  obtain ⟨y, compiled, breaks⟩ := overflowNeverSilent beyond.1 beyond.2
  obtain rfl := Program.loweredOfCompile compiled
  obtain ⟨_, _, _, done, own, o, later, _, _, _, _, _, operations, earlier, outside, kind⟩ :=
    (breaks 1).2 .multiplication failed
  exact ⟨near.1, near.2, by decide +kernel, ((fits 1).1 none ended).2.2, beyond.1, beyond.2, failed,
    done.operations ++ own, o, later, operations, earlier, outside, kind⟩

end CalcLang
