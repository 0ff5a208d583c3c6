import CalcLang.Machine.Basic

/-! What a step can do. It carries out one instruction of the running frame, opens a frame for
a function below the depth limit, or goes back to the frame that waits. -/
namespace CalcLang

namespace Frame

variable {x : Executable} {limit : Nat} {globals after : Globals} {f : Frame} {i : Instruction}

theorem enterOk {name : String} {argc : Nat} {effect : Effect}
    (entered : f.enter x limit name argc = .ok effect) :
    ∃ code, x.functions.get? name = some code ∧ argc = code.params.length ∧ f.depth < limit ∧
      argc ≤ f.stack.length ∧
      effect = .enter (f.advance (f.stack.drop argc)) name
        (start code (.ofPairs (code.params.zip (f.stack.take argc).reverse)) (f.depth + 1)) := by
  unfold enter at entered
  split at entered
  · cases entered
  · rename_i code found
    split at entered
    · cases entered
    · split at entered
      · cases entered
      · split at entered
        · cases entered
        · cases entered
          exact ⟨code, found, by omega, by omega, by omega, rfl⟩

theorem performProceed {g : Frame} (performed : f.perform x limit globals i = .ok (.proceed g after)) :
    ∃ stack, g = f.advance stack := by
  cases i with
  | call name argc =>
    obtain ⟨code, _, _, _, _, same⟩ := enterOk performed
    cases same
  | _ =>
    simp only [perform] at performed
    repeat' split at performed
    all_goals
      cases performed
      try exact ⟨_, rfl⟩

theorem performEnter {caller callee : Frame} {name : String}
    (performed : f.perform x limit globals i = .ok (.enter caller name callee)) :
    ∃ code, i = .call name code.params.length ∧ x.functions.get? name = some code ∧
      f.depth < limit ∧ code.params.length ≤ f.stack.length ∧
      caller = f.advance (f.stack.drop code.params.length) ∧
      callee = start code
        (.ofPairs (code.params.zip (f.stack.take code.params.length).reverse)) (f.depth + 1) := by
  cases i with
  | call target argc =>
    obtain ⟨code, found, rfl, shallow, enough, same⟩ := enterOk performed
    cases same
    exact ⟨code, rfl, found, shallow, enough, rfl, rfl⟩
  | _ =>
    simp only [perform] at performed
    repeat' split at performed
    all_goals cases performed

end Frame

namespace State

inductive Move (x : Executable) (limit : Nat) (s : State) : State → Prop
  | proceed {i stack globals} (running : s.frame.current? = some i)
      (performed : s.frame.perform x limit s.globals i =
        .ok (.proceed (s.frame.advance stack) globals)) :
      Move x limit s ⟨s.frame.advance stack, s.suspended, globals⟩
  | enter {name code} (running : s.frame.current? = some (.call name code.params.length))
      (found : x.functions.get? name = some code) (shallow : s.frame.depth < limit)
      (enough : code.params.length ≤ s.frame.stack.length) :
      Move x limit s
        ⟨.start code
          (.ofPairs (code.params.zip (s.frame.stack.take code.params.length).reverse))
          (s.frame.depth + 1),
        ⟨s.frame.advance (s.frame.stack.drop code.params.length), name⟩ :: s.suspended, s.globals⟩
  | resume {waiting rest v} (suspended : s.suspended = waiting :: rest) :
      Move x limit s
        ⟨{ waiting.frame with stack := v :: waiting.frame.stack }, rest, s.globals⟩

variable {x : Executable} {limit : Nat} {s after : State}

theorem resumeMove {value : Option Value} (resumed : s.resume value = .next after) :
    Move x limit s after := by
  unfold resume at resumed
  split at resumed
  · cases resumed
  · rename_i waiting rest suspended
    split at resumed
    · cases resumed
      exact .resume suspended
    · cases resumed

theorem stepMove (stepped : s.step x limit = .next after) : Move x limit s after := by
  unfold step at stepped
  split at stepped
  · exact resumeMove stepped
  · rename_i i running
    split at stepped
    · cases stepped
    · rename_i performed
      cases stepped
      obtain ⟨stack, rfl⟩ := Frame.performProceed performed
      exact .proceed running performed
    · rename_i performed
      cases stepped
      obtain ⟨code, rfl, found, shallow, enough, rfl, rfl⟩ := Frame.performEnter performed
      exact .enter running found shallow enough
    · exact resumeMove stepped

end State
end CalcLang
