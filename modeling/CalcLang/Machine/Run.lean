import CalcLang.Machine.Steps

/-! Runs of the machine. Code has no jumps and calls are bounded by the depth limit, so
every run ends: an instruction of a frame counts for more than everything its callee can
still do. An observer sees each instruction before it is carried out. -/
namespace CalcLang

structure Event where
  depth : Nat
  ip : Nat
  instruction : Instruction
  stack : List Value
  deriving DecidableEq

def Event.text (e : Event) : String :=
  "[depth " ++ toString e.depth ++ "] " ++ offsetText e.ip ++ "  " ++ e.instruction.text ++
    "  stack=[" ++ ", ".intercalate (e.stack.reverse.map Value.inspect) ++ "]"

def longest : List (String × CodeObject) → Nat
  | [] => 0
  | e :: rest => max e.2.instructions.size (longest rest)

def Executable.breadth (x : Executable) : Nat := longest x.functions.entries + 2

/-- What a frame can still do: each instruction left, and the return, weighs more than a
whole callee. -/
def Frame.weight (breadth limit : Nat) (f : Frame) : Nat :=
  (f.code.instructions.size - f.ip + 1) * Nat.pow breadth (limit - f.depth)

def suspendedWeight (breadth limit : Nat) : List Suspended → Nat
  | [] => 0
  | w :: rest => w.frame.weight breadth limit + suspendedWeight breadth limit rest

namespace State

def weight (breadth limit : Nat) (s : State) : Nat :=
  s.frame.weight breadth limit + suspendedWeight breadth limit s.suspended

private theorem memberLeLongest {e : String × CodeObject} {entries : List (String × CodeObject)}
    (mem : e ∈ entries) : e.2.instructions.size ≤ longest entries := by
  induction entries with
  | nil => simp at mem
  | cons head rest ih =>
    simp only [longest]
    rcases List.mem_cons.mp mem with rfl | mem
    · exact Nat.le_max_left _ _
    · exact Nat.le_trans (ih mem) (Nat.le_max_right _ _)

theorem codeBelowBreadth {x : Executable} {name : String} {code : CodeObject}
    (found : x.functions.get? name = some code) : code.instructions.size + 1 < x.breadth := by
  have : code.instructions.size ≤ longest x.functions.entries :=
    memberLeLongest (Bindings.findMember found)
  simp only [Executable.breadth]
  omega

theorem breadthPositive (x : Executable) : 0 < x.breadth := by
  simp [Executable.breadth]

theorem advanceWeight {breadth limit : Nat} {f : Frame} {i : Instruction}
    (running : f.current? = some i) (stack : List Value) :
    (f.advance stack).weight breadth limit + Nat.pow breadth (limit - f.depth) =
      f.weight breadth limit := by
  have inside : f.ip < f.code.instructions.size := (Array.getElem?_eq_some_iff.mp running).1
  simp only [Frame.weight, Frame.advance]
  have : f.code.instructions.size - f.ip + 1 = f.code.instructions.size - (f.ip + 1) + 1 + 1 := by
    omega
  rw [this]
  exact (Nat.succ_mul _ _).symm

theorem frameWeightPositive (x : Executable) (limit : Nat) (f : Frame) :
    0 < f.weight x.breadth limit :=
  Nat.mul_pos (Nat.succ_pos _) (Nat.pow_pos (breadthPositive x))

theorem calleeWeight {x : Executable} {limit depth : Nat} {name : String} {code : CodeObject}
    (found : x.functions.get? name = some code) (shallow : depth < limit) (locals : Bindings Value) :
    (Frame.start code locals (depth + 1)).weight x.breadth limit <
      Nat.pow x.breadth (limit - depth) := by
  have small := codeBelowBreadth found
  have power : 0 < Nat.pow x.breadth (limit - (depth + 1)) := Nat.pow_pos (breadthPositive x)
  have deeper : limit - depth = (limit - (depth + 1)) + 1 := by omega
  simp only [Frame.start, Frame.weight, Nat.sub_zero]
  rw [deeper, Nat.mul_comm]
  exact Nat.mul_lt_mul_of_pos_left small power

theorem moveWeight {x : Executable} {limit : Nat} {s after : State} (move : Move x limit s after) :
    after.weight x.breadth limit < s.weight x.breadth limit := by
  have paid {i : Instruction} (running : s.frame.current? = some i) (stack : List Value) :
      (s.frame.advance stack).weight x.breadth limit + Nat.pow x.breadth (limit - s.frame.depth) =
        s.frame.weight x.breadth limit := advanceWeight running stack
  cases move with
  | @proceed i stack globals running _ =>
    have power : 0 < Nat.pow x.breadth (limit - s.frame.depth) := Nat.pow_pos (breadthPositive x)
    have rest := paid running stack
    simp only [weight]
    omega
  | @enter name code running found shallow enough =>
    have callee := calleeWeight found shallow
      (.ofPairs (code.params.zip (s.frame.stack.take code.params.length).reverse))
    have rest := paid running (s.frame.stack.drop code.params.length)
    simp only [weight, suspendedWeight]
    omega
  | @resume waiting others v suspended =>
    have own := frameWeightPositive x limit s.frame
    simp only [weight, suspended, suspendedWeight, Frame.weight] at own ⊢
    omega

theorem stepWeight {x : Executable} {limit : Nat} {s after : State}
    (stepped : s.step x limit = .next after) :
    after.weight x.breadth limit < s.weight x.breadth limit := moveWeight (stepMove stepped)

def event? (s : State) : Option Event :=
  s.frame.current?.map fun i => ⟨s.frame.depth, s.frame.ip, i, s.frame.stack⟩

def runFrom {σ : Type} (x : Executable) (limit : Nat) (observe : σ → Event → σ) (seen : σ)
    (s : State) : Outcome × σ :=
  let seen := s.event?.elim seen (observe seen)
  match _stepped : s.step x limit with
  | .stopped outcome => (outcome, seen)
  | .next after =>
    after.runFrom x limit observe seen
termination_by s.weight x.breadth limit
decreasing_by exact stepWeight ‹_›

end State

namespace Executable

def run (x : Executable) (limit : Nat) : Outcome :=
  ((State.initial x).runFrom x limit (fun _ _ => ()) ()).1

def trace (x : Executable) (limit : Nat) : Outcome × Array Event :=
  (State.initial x).runFrom x limit Array.push #[]

end Executable
end CalcLang
