import CalcLang.Proofs.Frames

/-! Runs as sequences of steps. A frame is opened only below the depth limit, and the weight of
the state pays for every step, so the number of steps of a run is bounded by the code and the
limit alone. Nothing is assumed about the code. -/
namespace CalcLang

def Executable.stepBound (x : Executable) (limit : Nat) : Nat :=
  (x.main.instructions.size + 1) * Nat.pow x.breadth limit

namespace State

inductive Reached (x : Executable) (limit : Nat) : Nat → State → Prop
  | initial : Reached x limit 0 (.initial x)
  | next {count s after} (earlier : Reached x limit count s)
      (stepped : s.step x limit = .next after) : Reached x limit (count + 1) after

def frames (s : State) : List Frame := s.frame :: s.suspended.map Suspended.frame

def Shallow (limit : Nat) (s : State) : Prop := ∀ f ∈ s.frames, f.depth ≤ limit

variable {x : Executable} {limit count : Nat} {s after : State}

theorem shallowMove (move : Move x limit s after) (shallow : s.Shallow limit) :
    after.Shallow limit := by
  obtain ⟨running, waiting⟩ := List.forall_mem_cons.mp shallow
  cases move with
  | proceed _ _ => exact List.forall_mem_cons.mpr ⟨running, waiting⟩
  | enter _ _ room _ =>
    exact List.forall_mem_cons.mpr ⟨room, List.forall_mem_cons.mpr ⟨running, waiting⟩⟩
  | resume suspended =>
    rw [suspended] at waiting
    exact List.forall_mem_cons.mpr (List.forall_mem_cons.mp waiting)

theorem reachedShallow (reached : Reached x limit count s) : s.Shallow limit := by
  induction reached with
  | initial => exact List.forall_mem_cons.mpr ⟨Nat.zero_le limit, by simp [State.initial]⟩
  | next _ stepped ih => exact shallowMove (stepMove stepped) ih

theorem initialWeight (x : Executable) (limit : Nat) :
    (State.initial x).weight x.breadth limit = x.stepBound limit := by
  simp only [weight, State.initial, Frame.start, Frame.weight, suspendedWeight,
    Executable.stepBound, Nat.sub_zero, Nat.add_zero]

theorem reachedWeight (reached : Reached x limit count s) :
    count + s.weight x.breadth limit ≤ x.stepBound limit := by
  induction reached with
  | initial => exact Nat.le_of_eq (by rw [initialWeight, Nat.zero_add])
  | next _ stepped ih =>
    have lighter := stepWeight stepped
    omega

theorem reachedBound (reached : Reached x limit count s) : count < x.stepBound limit := by
  have paid := reachedWeight reached
  have own := frameWeightPositive x limit s.frame
  simp only [weight] at paid
  omega

theorem runStops {σ : Type} {observe : σ → Event → σ} (reached : Reached x limit count s) (seen : σ) :
    ∃ total last, Reached x limit total last ∧
      last.step x limit = .stopped (s.runFrom x limit observe seen).1 := by
  induction size : s.weight x.breadth limit using Nat.strongRecOn generalizing s seen count with
  | _ n ih =>
    subst size
    cases stepped : s.step x limit with
    | stopped outcome =>
      rw [runFromStopped stepped]
      exact ⟨count, s, reached, stepped⟩
    | next after =>
      rw [runFromNext stepped]
      exact ih _ (stepWeight stepped) (.next reached stepped) _ rfl

end State

open State (Reached)

theorem everyRunEnds (x : Executable) {limit : Nat} (narrow : limit < UInt64.size - 1) :
    (∃ count s, Reached x limit count s ∧ s.step x limit = .stopped (x.run limit)) ∧
      ∀ count s, Reached x limit count s →
        count < x.stepBound limit ∧ ∀ f ∈ s.frames, f.depth + 1 ≤ UInt64.size - 1 := by
  refine ⟨State.runStops .initial (), fun count s reached => ?_⟩
  refine ⟨State.reachedBound reached, fun f mem => ?_⟩
  have shallow := State.reachedShallow reached f mem
  omega

def mutualCalls : Executable :=
  ⟨⟨[], #[.call "f" 0, .storeVar "r", .ret], #[]⟩,
    .ofPairs [("f", ⟨[], #[.call "g" 0, .call "g" 0, .apply .add, .ret], #[]⟩),
      ("g", ⟨[], #[.call "f" 0], #[]⟩)]⟩

theorem everyRunEndsMutual :
    UInt64.size - 2 < UInt64.size - 1 ∧
      (∃ count s, Reached mutualCalls (UInt64.size - 2) count s ∧
        s.step mutualCalls (UInt64.size - 2) = .stopped (mutualCalls.run (UInt64.size - 2))) := by
  have narrow : UInt64.size - 2 < UInt64.size - 1 := by decide
  exact ⟨narrow, (everyRunEnds mutualCalls narrow).1⟩

end CalcLang
