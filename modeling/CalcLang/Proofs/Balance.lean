import CalcLang.Proofs.Halting
import CalcLang.Proofs.Shape

/-! The operand stacks of a run. In every state that a run of compiled code passes through, the
stack of each frame is as high as the instructions before it say; a frame that waits for a call has
given up the arguments and does not have the value yet. -/
namespace CalcLang

theorem CodeObject.heightNext {code : CodeObject} {ip : Nat} {i : Instruction}
    (here : code.instructions[ip]? = some i) :
    code.height (ip + 1) = code.height ip + (i.pushed - i.popped) := by
  rw [← Array.getElem?_toList] at here
  rw [height, height, List.take_add_one, here, Option.toList_some, riseAppend]
  simp only [rise, Int.add_zero]

namespace CodeObject.Tidy

variable {code : CodeObject} {result : Nat}

theorem sizePos (tidy : code.Tidy result) : 0 < code.instructions.size := by
  obtain ⟨body, listed, _⟩ := tidy.returns
  rw [← Array.length_toList, listed, List.length_append, List.length_singleton]
  exact Nat.succ_pos _

theorem returnsLast (tidy : code.Tidy result) {ip : Nat} (inside : ip < code.instructions.size) :
    code.instructions[ip]? = some .ret ↔ ip + 1 = code.instructions.size := by
  obtain ⟨body, listed, absent⟩ := tidy.returns
  have length : code.instructions.size = body.length + 1 := by
    rw [← Array.length_toList, listed, List.length_append, List.length_singleton]
  rw [← Array.getElem?_toList, listed]
  constructor
  · intro returns
    by_cases early : ip < body.length
    · rw [List.getElem?_append_left early] at returns
      exact absurd (List.mem_of_getElem? returns) absent
    · omega
  · intro last
    obtain rfl : ip = body.length := by omega
    simp

end CodeObject.Tidy

namespace Frame

variable {x : Executable} {limit : Nat} {globals after : Globals} {f g : Frame} {i : Instruction}

theorem performHeight (performed : f.perform x limit globals i = .ok (.proceed g after)) :
    i ≠ .ret ∧ ∃ stack, g = f.advance stack ∧ stack.length + i.popped = f.stack.length + i.pushed := by
  cases i with
  | call name argc =>
    obtain ⟨code, _, _, _, _, same⟩ := enterOk performed
    cases same
  | ret => cases performed
  | _ =>
    simp only [perform] at performed
    repeat' split at performed
    all_goals
      cases performed
      try exact ⟨by simp, _, rfl, by simp [*, Instruction.popped, Instruction.pushed]⟩

structure Balanced (f : Frame) : Prop where
  inside : f.ip < f.code.instructions.size
  height : (f.stack.length : Int) = f.code.height f.ip

theorem behindInside {code : CodeObject} {ip result : Nat} (tidy : code.Tidy result)
    (here : code.instructions[ip]? = some i) (goesOn : i ≠ .ret) : ip + 1 < code.instructions.size := by
  obtain ⟨inside, _⟩ := Array.getElem?_eq_some_iff.mp here
  have different : ip + 1 ≠ code.instructions.size := by
    intro last
    have returns := (tidy.returnsLast inside).mpr last
    exact goesOn (Option.some.inj (here.symm.trans returns))
  omega

theorem returnHeight {result : Nat} (tidy : f.code.Tidy result) (balanced : f.Balanced)
    (returning : f.current? = some .ret) : f.stack.length = result := by
  have last := (tidy.returnsLast balanced.inside).mp returning
  have height := balanced.height
  have known := tidy.result
  rw [← last, Nat.add_sub_cancel] at known
  omega

end Frame

structure Suspended.Balanced (w : Suspended) : Prop where
  inside : w.frame.ip < w.frame.code.instructions.size
  called : ∃ place argc, w.frame.ip = place + 1 ∧
    w.frame.code.instructions[place]? = some (.call w.callee argc) ∧
    (w.frame.stack.length : Int) = w.frame.code.height place - argc

namespace State

variable {x : Executable} {limit count : Nat} {s after : State}

def codes (s : State) : List CodeObject := s.frames.map Frame.code

def Housed (x : Executable) (s : State) : Prop :=
  ∃ functions, s.codes = functions ++ [x.main] ∧
    ∀ code ∈ functions, ∃ name, x.functions.get? name = some code

theorem housedMove (move : Move x limit s after) (housed : s.Housed x) : after.Housed x := by
  obtain ⟨functions, split, known⟩ := housed
  cases move with
  | proceed _ _ => exact ⟨functions, split, known⟩
  | @enter name code _ found _ _ =>
    refine ⟨code :: functions, congrArg (List.cons code) split, ?_⟩
    exact List.forall_mem_cons.mpr ⟨⟨name, found⟩, known⟩
  | @resume waiting rest v suspended =>
    simp only [codes, frames, suspended, List.map_cons] at split
    cases functions with
    | nil => simp at split
    | cons code functions =>
      obtain ⟨_, others⟩ := List.cons.inj split
      exact ⟨functions, others, (List.forall_mem_cons.mp known).2⟩

theorem reachedHoused (reached : Reached x limit count s) : s.Housed x := by
  induction reached with
  | initial => exact ⟨[], rfl, by simp⟩
  | next _ stepped ih => exact housedMove (stepMove stepped) ih

/-- Every frame has as many operands as its code says, and where a frame returns it has one, or none
at the top level. -/
structure Balanced (s : State) : Prop where
  running : s.frame.Balanced
  waiting : ∀ w ∈ s.suspended, w.Balanced
  returning : s.frame.current? = some .ret → s.frame.stack.length = if s.suspended = [] then 0 else 1

end State

/-- Code without stray returns, whose stack is empty again at the end of the top level and holds the
value at the end of a function. -/
structure Executable.Tidy (x : Executable) : Prop where
  main : x.main.Tidy 0
  functions : ∀ name code, x.functions.get? name = some code → code.Tidy 1

namespace State

variable {x : Executable} {limit count : Nat} {s after : State}

theorem housedTidy (tidy : x.Tidy) (housed : s.Housed x) :
    s.frame.code.Tidy (if s.suspended = [] then 0 else 1) := by
  obtain ⟨functions, split, known⟩ := housed
  simp only [codes, frames, List.map_cons] at split
  cases functions with
  | nil =>
    obtain ⟨same, none⟩ := List.cons.inj split
    simp only [List.map_eq_nil_iff] at none
    rw [same, if_pos none]
    exact tidy.main
  | cons code functions =>
    obtain ⟨same, others⟩ := List.cons.inj split
    have some : s.suspended ≠ [] := by
      intro none
      simp [none] at others
    obtain ⟨name, found⟩ := known code List.mem_cons_self
    rw [same, if_neg some]
    exact tidy.functions name code found

theorem balancedStart {code : CodeObject} {result : Nat} (tidy : code.Tidy result)
    (locals : Bindings Value) (depth : Nat) : (Frame.start code locals depth).Balanced :=
  ⟨tidy.sizePos, rfl⟩

theorem balancedMove (tidy : x.Tidy) (housed : s.Housed x) (move : Move x limit s after)
    (running : s.frame.Balanced) (waiting : ∀ w ∈ s.suspended, w.Balanced) :
    after.frame.Balanced ∧ ∀ w ∈ after.suspended, w.Balanced := by
  have own := housedTidy tidy housed
  have height := running.height
  cases move with
  | @proceed i stack globals here performed =>
    obtain ⟨goesOn, other, same, lengths⟩ := Frame.performHeight performed
    obtain rfl : stack = other := congrArg Frame.stack same
    refine ⟨⟨Frame.behindInside own here goesOn, ?_⟩, waiting⟩
    simp only [Frame.advance, CodeObject.heightNext here]
    omega
  | @enter name code here found shallow enough =>
    refine ⟨balancedStart (tidy.functions name code found) _ _, ?_⟩
    refine List.forall_mem_cons.mpr ⟨⟨Frame.behindInside own here (by simp), ?_⟩, waiting⟩
    refine ⟨s.frame.ip, code.params.length, rfl, here, ?_⟩
    simp only [Frame.advance, List.length_drop]
    omega
  | @resume waiter rest v suspended =>
    rw [suspended] at waiting
    obtain ⟨⟨inside, place, argc, behind, called, lengths⟩, others⟩ := List.forall_mem_cons.mp waiting
    refine ⟨⟨inside, ?_⟩, others⟩
    -- the value that the call was still to push
    simp only [List.length_cons, behind, CodeObject.heightNext called, Instruction.pushed,
      Instruction.popped]
    omega

theorem reachedBalanced (tidy : x.Tidy) (reached : Reached x limit count s) : s.Balanced := by
  have frames : s.frame.Balanced ∧ ∀ w ∈ s.suspended, w.Balanced := by
    induction reached with
    | initial => exact ⟨balancedStart tidy.main _ _, by simp [State.initial]⟩
    | next earlier stepped ih =>
      exact balancedMove tidy (reachedHoused earlier) (stepMove stepped) ih.1 ih.2
  refine ⟨frames.1, frames.2, fun returning => ?_⟩
  exact Frame.returnHeight (housedTidy tidy (reachedHoused reached)) frames.1 returning

end State

theorem Program.functionsTidy {p : Program} (able : p.Lowerable) {name : String} {code : CodeObject}
    (found : p.lowered.functions.get? name = some code) :
    code.Tidy 1 ∧ ∀ i ∈ code.instructions, ¬ i.Closing := by
  rw [loweredFunction, Option.map_eq_some_iff] at found
  obtain ⟨d, defined, rfl⟩ := found
  exact Definition.loweredTidy (able.calls _ (memDefinitions.mp (functionDefined defined).1))

theorem compiledCodeBalanced {p : Program} {x : Executable} (compiled : p.compile = .ok x) :
    x.Tidy ∧ (∀ name, .loadLocal name ∉ x.main.instructions) ∧
      (∀ name code, x.functions.get? name = some code → ∀ i ∈ code.instructions, ¬ i.Closing) ∧
      ∀ limit count s, State.Reached x limit count s → s.Housed x ∧ s.Balanced := by
  have able := Program.lowerableOfCompile compiled
  rw [Program.loweredOfCompile compiled]
  have tidy : p.lowered.Tidy :=
    ⟨Program.mainTidy able, fun _ _ found => (Program.functionsTidy able found).1⟩
  refine ⟨tidy, fun name mem => ?_, fun _ _ found => (Program.functionsTidy able found).2, ?_⟩
  · exact absurd (tidy.main.locals name mem) List.not_mem_nil
  · intro limit count s reached
    exact ⟨State.reachedHoused reached, State.reachedBalanced tidy reached⟩

def pendingOperands : Program :=
  ⟨[.define "f" ["a"] (.var "a"), .define "g" ["a", "b"] (.binary .add (.var "a") (.var "b")),
    .assign "r" (.binary .add (.number (.int 1))
      (.call (.var "g") [.number (.int 2), .call (.var "f") [.number (.int 1)]]))]⟩

theorem compiledCodeBalancedPending :
    pendingOperands.compile = .ok pendingOperands.lowered ∧
      ∃ s, State.Reached pendingOperands.lowered 1 4 s ∧
        s.frames.map (fun f => (f.ip, f.stack)) = [(0, []), (4, [.int 2, .int 1])] ∧ s.Balanced := by
  have compiled : pendingOperands.compile = .ok pendingOperands.lowered := by decide +kernel
  have reached : ∃ s, State.Reached pendingOperands.lowered 1 4 s ∧
      s.frames.map (fun f => (f.ip, f.stack)) = [(0, []), (4, [.int 2, .int 1])] :=
    ⟨_, .next (.next (.next (.next .initial rfl) rfl) rfl) rfl, rfl⟩
  obtain ⟨s, reached, frames⟩ := reached
  exact ⟨compiled, s, reached, frames, ((compiledCodeBalanced compiled).2.2.2 1 4 s reached).2⟩

end CalcLang
