import CalcLang.Proofs.Basic
import CalcLang.Proofs.Halting

/-! Runs of the same code under two depth limits. A step looks at the limit only when it is
about to open a frame, so the two runs go through the same states until the lower limit stops
one of them. Nothing is assumed about the code. -/
namespace CalcLang

namespace Frame

variable {x : Executable} {low high limit reported : Nat} {globals : Globals} {f : Frame}
  {i : Instruction}

theorem enterRaised (le : low ≤ high) (name : String) (argc : Nat) :
    f.enter x high name argc = f.enter x low name argc ∨
      f.enter x low name argc = .error (.recursionLimit low) := by
  unfold enter
  cases x.functions.get? name with
  | none => exact .inl rfl
  | some code =>
    dsimp only
    by_cases arity : argc ≠ code.params.length
    · rw [if_pos arity, if_pos arity]
      exact .inl rfl
    · rw [if_neg arity, if_neg arity]
      by_cases deep : low < f.depth + 1
      · rw [if_pos deep]
        exact .inr rfl
      · rw [if_neg deep, if_neg (by omega : ¬ high < f.depth + 1)]
        exact .inl rfl

theorem performRaised (le : low ≤ high) :
    f.perform x high globals i = f.perform x low globals i ∨
      f.perform x low globals i = .error (.recursionLimit low) := by
  cases i with
  | call name argc => exact enterRaised le name argc
  | _ => exact .inl rfl

theorem enterLimit {name : String} {argc : Nat}
    (failed : f.enter x limit name argc = .error (.recursionLimit reported)) : reported = limit := by
  unfold enter at failed
  repeat' split at failed
  all_goals cases failed
  rfl

theorem performLimit (failed : f.perform x limit globals i = .error (.recursionLimit reported)) :
    reported = limit := by
  cases i with
  | call name argc => exact enterLimit failed
  | _ =>
    simp only [perform] at failed
    repeat' split at failed
    all_goals cases failed

end Frame

namespace State

variable {x : Executable} {low high limit reported : Nat}

theorem stepRaised (le : low ≤ high) (s : State) :
    s.step x high = s.step x low ∨
      s.step x low = .stopped ⟨.error (.recursionLimit low), s.globals⟩ := by
  unfold step
  cases s.frame.current? with
  | none => exact .inl rfl
  | some i =>
    dsimp only
    rcases Frame.performRaised le with same | deep
    · rw [same]
      exact .inl rfl
    · rw [deep]
      exact .inr rfl

theorem resumeLimit {s : State} {value : Option Value} {outcome : Outcome}
    (resumed : s.resume value = .stopped outcome) :
    outcome.result ≠ .error (.recursionLimit reported) := by
  unfold resume at resumed
  repeat' split at resumed
  all_goals
    cases resumed
    try simp

theorem stepLimit {s : State} {outcome : Outcome} (stepped : s.step x limit = .stopped outcome)
    (failed : outcome.result = .error (.recursionLimit reported)) : reported = limit := by
  unfold step at stepped
  split at stepped
  · exact absurd failed (resumeLimit stepped)
  · split at stepped
    · rename_i performed
      cases stepped
      cases failed
      exact Frame.performLimit performed
    · cases stepped
    · cases stepped
    · exact absurd failed (resumeLimit stepped)

theorem runFromRaised {σ : Type} {observe : σ → Event → σ} (le : low ≤ high) (s : State) (seen : σ) :
    s.runFrom x high observe seen = s.runFrom x low observe seen ∨
      (s.runFrom x low observe seen).1.result = .error (.recursionLimit low) := by
  -- the weight under the lower limit falls with every step that the two runs share
  induction size : s.weight x.breadth low using Nat.strongRecOn generalizing s seen with
  | _ n ih =>
    subst size
    rcases stepRaised (x := x) le s with same | deep
    · cases stepped : s.step x low with
      | stopped outcome =>
        rw [stepped] at same
        rw [runFromStopped same, runFromStopped stepped]
        exact .inl rfl
      | next after =>
        rw [stepped] at same
        rw [runFromNext same, runFromNext stepped]
        exact ih _ (stepWeight stepped) after _ rfl
    · rw [runFromStopped deep]
      exact .inr rfl

end State

theorem Executable.runLimit {x : Executable} {limit reported : Nat}
    (failed : (x.run limit).result = .error (.recursionLimit reported)) : reported = limit := by
  have ends : ∃ count s, State.Reached x limit count s ∧ s.step x limit = .stopped (x.run limit) :=
    State.runStops .initial ()
  obtain ⟨count, last, _, stopped⟩ := ends
  exact State.stepLimit stopped failed

theorem raisedLimitKeepsOutcome (x : Executable) {low high : Nat} (le : low ≤ high) :
    ((∀ reported, (x.run low).result ≠ .error (.recursionLimit reported)) → x.run high = x.run low) ∧
      ∀ reported, (x.run high).result = .error (.recursionLimit reported) →
        (x.run low).result = .error (.recursionLimit low) := by
  have raised : x.run high = x.run low ∨ (x.run low).result = .error (.recursionLimit low) := by
    rcases State.runFromRaised le (State.initial x) () with same | deep
    · exact .inl (congrArg Prod.fst same)
    · exact .inr deep
  rcases raised with same | deep
  · refine ⟨fun _ => same, fun reported failed => ?_⟩
    rw [same] at failed
    rw [failed, Executable.runLimit failed]
  · exact ⟨fun other => absurd deep (other low), fun _ _ => deep⟩

def missingOperand : Executable :=
  ⟨⟨[], #[.call "f" 0, .ret], #[]⟩,
    .ofPairs [("f", ⟨[], #[.call "g" 1, .ret], #[]⟩), ("g", ⟨["a"], #[.loadLocal "a", .ret], #[]⟩)]⟩

theorem raisedLimitMissingOperand :
    (missingOperand.run 1).result = .error (.recursionLimit 1) ∧
      (missingOperand.run 2).result = .error .stackUnderflow ∧
      missingOperand.run 1000 = missingOperand.run 2 ∧
      (mutualCalls.run 9).result = .error (.recursionLimit 9) ∧
      (mutualCalls.run 3).result = .error (.recursionLimit 3) := by
  have short : (missingOperand.run 2).result = .error .stackUnderflow := by decide +kernel
  have endless : (mutualCalls.run 9).result = .error (.recursionLimit 9) := by decide +kernel
  have kept := (raisedLimitKeepsOutcome missingOperand (by decide : 2 ≤ 1000)).1 fun reported => by
    rw [short]
    simp
  have lowered := (raisedLimitKeepsOutcome mutualCalls (by decide : 3 ≤ 9)).2 9 endless
  exact ⟨by decide +kernel, short, kept, endless, lowered⟩

end CalcLang
