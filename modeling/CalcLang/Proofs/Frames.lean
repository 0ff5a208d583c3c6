import CalcLang.Machine.Interpret

/-! The frames of the machine against the recursive reading of code. A frame interprets the
code it has left; a run from a state is the interpretation of its running frame, and then of
whatever that frame's end resumes. Nothing is assumed about the code. -/
namespace CalcLang
open State (step resume runFrom)

namespace Frame

def interpret (x : Executable) (limit : Nat) (globals : Globals) (f : Frame) : Outcome × List Event :=
  x.interpret limit f.depth f.code.constants f.locals f.ip f.stack globals
    (f.code.instructions.toList.drop f.ip)

def event (f : Frame) (i : Instruction) : Event := ⟨f.depth, f.ip, i, f.stack⟩

def interpretEffect (x : Executable) (limit : Nat) (globals : Globals) (f : Frame) (i : Instruction) :
    Except RunError Effect → Outcome × List Event
  | .error e => (⟨.error e, globals⟩, [f.event i])
  | .ok (.proceed g after) =>
    let (outcome, events) := g.interpret x limit after
    (outcome, f.event i :: events)
  | .ok (.enter caller name callee) =>
    let (inner, events) := callee.interpret x limit globals
    match inner.result with
    | .error e => (⟨.error e, inner.globals⟩, f.event i :: events)
    | .ok none => (⟨.error (.missingReturnValue name), inner.globals⟩, f.event i :: events)
    | .ok (some value) =>
      let (outcome, later) :=
        { caller with stack := value :: caller.stack }.interpret x limit inner.globals
      (outcome, f.event i :: (events ++ later))
  | .ok (.leave value) => (⟨.ok value, globals⟩, [f.event i])

variable {x : Executable} {limit : Nat} {globals : Globals} {f : Frame} {i : Instruction}

theorem interpretEnded (ended : f.current? = none) :
    f.interpret x limit globals = (⟨.ok none, globals⟩, []) := by
  have behind : f.code.instructions.size ≤ f.ip := Array.getElem?_eq_none_iff.mp ended
  have nothing : f.code.instructions.toList.drop f.ip = [] := List.drop_eq_nil_of_le (by simpa using behind)
  rw [interpret, nothing, Executable.interpret]

theorem remaining (running : f.current? = some i) :
    f.code.instructions.toList.drop f.ip = i :: f.code.instructions.toList.drop (f.ip + 1) := by
  obtain ⟨inside, same⟩ := Array.getElem?_eq_some_iff.mp running
  rw [List.drop_eq_getElem_cons (by simpa using inside)]
  simp [same]

theorem interpretRunning (running : f.current? = some i) :
    f.interpret x limit globals = f.interpretEffect x limit globals i (f.perform x limit globals i) := by
  rw [interpret, remaining running, Executable.interpret.eq_def]
  obtain ⟨code, ip, stack, locals, depth⟩ := f
  cases i with
  | pushConst index =>
    simp only [perform]
    cases code.constants[index]? <;> rfl
  | loadVar name =>
    simp only [perform]
    cases (locals.get? name).or (globals.get? name) <;> rfl
  | storeVar name => cases stack <;> rfl
  | loadLocal name =>
    simp only [perform]
    cases locals.get? name <;> rfl
  | pop => cases stack <;> rfl
  | apply op =>
    cases stack with
    | nil => rfl
    | cons right below =>
      cases below with
      | nil => rfl
      | cons left rest =>
        simp only [perform]
        cases left.apply op right <;> rfl
  | call name argc =>
    simp only [perform, enter]
    cases x.functions.get? name with
    | none => rfl
    | some callee =>
      dsimp only
      split
      · rfl
      · split
        · rfl
        · split <;> rfl
  | ret => rfl

end Frame

namespace State

def conclude {σ : Type} (x : Executable) (limit : Nat) (observe : σ → Event → σ) (seen : σ)
    (suspended : List Suspended) (done : Outcome × List Event) : Outcome × σ :=
  let seen := done.2.foldl observe seen
  match done.1.result with
  | .error e => (⟨.error e, done.1.globals⟩, seen)
  | .ok value =>
    match suspended, value with
    | [], _ => (⟨.ok value, done.1.globals⟩, seen)
    | waiting :: _, none => (⟨.error (.missingReturnValue waiting.callee), done.1.globals⟩, seen)
    | waiting :: rest, some v =>
      runFrom x limit observe seen
        ⟨{ waiting.frame with stack := v :: waiting.frame.stack }, rest, done.1.globals⟩

variable {σ : Type} {x : Executable} {limit : Nat} {observe : σ → Event → σ}

theorem runFromStopped {s : State} {outcome : Outcome} (stepped : s.step x limit = .stopped outcome)
    (seen : σ) :
    s.runFrom x limit observe seen = (outcome, s.event?.elim seen (observe seen)) := by
  rw [runFrom]
  split
  · rename_i same
    cases stepped.symm.trans same
    rfl
  · rename_i other
    cases stepped.symm.trans other

theorem runFromNext {s after : State} (stepped : s.step x limit = .next after) (seen : σ) :
    s.runFrom x limit observe seen =
      after.runFrom x limit observe (s.event?.elim seen (observe seen)) := by
  rw [runFrom]
  split
  · rename_i other
    cases stepped.symm.trans other
  · rename_i same
    cases stepped.symm.trans same
    rfl

theorem runFromLeft {s : State} {value : Option Value} (stepped : s.step x limit = s.resume value)
    (seen : σ) :
    s.runFrom x limit observe seen =
      conclude x limit observe (s.event?.elim seen (observe seen)) s.suspended
        (⟨.ok value, s.globals⟩, []) := by
  obtain ⟨frame, suspended, globals⟩ := s
  cases suspended with
  | nil => exact runFromStopped stepped seen
  | cons waiting rest =>
    cases value with
    | none => exact runFromStopped stepped seen
    | some v => exact runFromNext stepped seen

theorem concludeEnter {f caller callee : Frame} {name : String} {suspended : List Suspended}
    {globals : Globals} (i : Instruction) (seen : σ)
    (resumed : ∀ v seen after,
      runFrom x limit observe seen ⟨{ caller with stack := v :: caller.stack }, suspended, after⟩ =
        conclude x limit observe seen suspended
          ({ caller with stack := v :: caller.stack }.interpret x limit after)) :
    conclude x limit observe (observe seen (f.event i)) (⟨caller, name⟩ :: suspended)
        (callee.interpret x limit globals) =
      conclude x limit observe seen suspended
        (f.interpretEffect x limit globals i (.ok (.enter caller name callee))) := by
  simp only [Frame.interpretEffect]
  obtain ⟨⟨result, after⟩, events⟩ := callee.interpret x limit globals
  cases result with
  | error e => rfl
  | ok value =>
    cases value with
    | none => rfl
    | some v =>
      have later := resumed v (events.foldl observe (observe seen (f.event i))) after
      simp only [conclude, List.foldl_cons, List.foldl_append] at later ⊢
      exact later

theorem runFromInterpret (seen : σ) (s : State) :
    s.runFrom x limit observe seen =
      conclude x limit observe seen s.suspended (s.frame.interpret x limit s.globals) := by
  induction size : s.weight x.breadth limit using Nat.strongRecOn generalizing s seen with
  | _ n ih =>
    subst size
    cases current : s.frame.current? with
    | none =>
      have left : s.step x limit = s.resume none := by simp only [step, current]
      have silent : s.event? = none := by simp only [event?, current, Option.map_none]
      rw [runFromLeft left, silent, Frame.interpretEnded current]
      rfl
    | some i =>
      have loud : s.event? = some (s.frame.event i) := by
        simp only [event?, current, Option.map_some, Frame.event]
      rw [Frame.interpretRunning current]
      cases performed : s.frame.perform x limit s.globals i with
      | error e =>
        have stopped : s.step x limit = .stopped ⟨.error e, s.globals⟩ := by
          simp only [step, current, performed]
        rw [runFromStopped stopped, loud]
        rfl
      | ok effect =>
        cases effect with
        | proceed frame globals =>
          have next : s.step x limit = .next ⟨frame, s.suspended, globals⟩ := by
            simp only [step, current, performed]
          rw [runFromNext next, loud, ih _ (stepWeight next) _ _ rfl]
          rfl
        | leave value =>
          have left : s.step x limit = s.resume value := by simp only [step, current, performed]
          rw [runFromLeft left, loud]
          rfl
        | enter caller name callee =>
          have next : s.step x limit = .next ⟨callee, ⟨caller, name⟩ :: s.suspended, s.globals⟩ := by
            simp only [step, current, performed]
          rw [runFromNext next, loud, ih _ (stepWeight next) _ _ rfl]
          refine concludeEnter i seen fun v seen after => ?_
          -- the caller goes on with one call less to make, so it is lighter than this state
          have resumed : State.resume ⟨callee, ⟨caller, name⟩ :: s.suspended, s.globals⟩ (some v) =
              .next ⟨{ caller with stack := v :: caller.stack }, s.suspended, s.globals⟩ := rfl
          exact ih _ (Nat.lt_trans (moveWeight (resumeMove resumed)) (stepWeight next)) _ _ rfl

theorem runFromInitial (seen : σ) :
    (State.initial x).runFrom x limit observe seen =
      ((x.interpretMain limit).1, (x.interpretMain limit).2.foldl observe seen) := by
  rw [runFromInterpret]
  have main : (State.initial x).frame.interpret x limit (State.initial x).globals =
      x.interpretMain limit := rfl
  rw [main]
  obtain ⟨⟨result, globals⟩, events⟩ := x.interpretMain limit
  cases result <;> rfl

end State

theorem Executable.runInterpret (x : Executable) (limit : Nat) :
    x.run limit = (x.interpretMain limit).1 := by
  rw [run, State.runFromInitial]

theorem traceIsInterpretation (x : Executable) (limit : Nat) :
    x.run limit = (x.interpretMain limit).1 ∧
      x.trace limit = ((x.interpretMain limit).1, (x.interpretMain limit).2.toArray) := by
  refine ⟨x.runInterpret limit, ?_⟩
  rw [Executable.trace, State.runFromInitial, List.foldl_push_eq_append', Array.empty_append]

end CalcLang
