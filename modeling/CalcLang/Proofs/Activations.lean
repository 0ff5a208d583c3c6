import CalcLang.Proofs.Halting
import CalcLang.Proofs.Basic

/-! The frames of a run. Whatever the code is, the frames are the calls that have not returned, in
order: each one runs the function that the frame below it stands behind a call of. A frame that
returns hands its value to the state of that call, with nothing else changed but the globals. -/
namespace CalcLang

structure Called (x : Executable) (caller : Frame) (name : String) (f : Frame) : Prop where
  code : x.functions.get? name = some f.code
  locals : ∀ param, (f.locals.get? param).isSome ↔ param ∈ f.code.params
  depth : f.depth = caller.depth + 1
  behind : ∃ place, caller.ip = place + 1 ∧
    caller.code.instructions[place]? = some (.call name f.code.params.length)

def Rests (x : Executable) (f : Frame) : List Suspended → Prop
  | [] => f.code = x.main ∧ f.locals = .empty ∧ f.depth = 0
  | w :: rest => Called x w.frame w.callee f ∧ Rests x w.frame rest

namespace State

def stack (s : State) : List Frame := s.frames.reverse

def names (s : State) : List String := (s.suspended.map Suspended.callee).reverse

inductive Inside (x : Executable) (limit base : Nat) (s : State) : State → Prop
  | here (deep : base < s.suspended.length) : Inside x limit base s s
  | next {t after} (earlier : Inside x limit base s t) (stepped : t.step x limit = .next after)
      (deep : base < after.suspended.length) : Inside x limit base s after

/-- The call that the first state makes has not returned before the second. -/
structure Pending (x : Executable) (limit : Nat) (call : State) (name : String) (argc : Nat)
    (s : State) : Prop where
  reached : ∃ count, Reached x limit count call
  calling : call.frame.current? = some (.call name argc)
  since : ∃ entered, call.step x limit = .next entered ∧
    Inside x limit call.suspended.length entered s

/-- Frame `i` is the one with `i` frames below it. -/
structure Layered (x : Executable) (limit : Nat) (s : State) : Prop where
  bounded : s.stack.length ≤ limit + 1
  each : ∀ (i : Nat) f, s.stack[i]? = some f → f.depth = i ∧ f.ip ≤ f.code.instructions.size
  main : ∃ f, s.stack[0]? = some f ∧ f.code = x.main ∧ f.locals = .empty
  called : ∀ (i : Nat) caller f, s.stack[i]? = some caller → s.stack[i + 1]? = some f →
    ∃ name, s.names[i]? = some name ∧ Called x caller name f
  returns : ∀ w rest v, s.suspended = w :: rest → s.frame.current? = some .ret →
    s.frame.stack.head? = some v → ∃ call argc, Pending x limit call w.callee argc s ∧
      s.step x limit = .next
        ⟨{ call.frame with ip := call.frame.ip + 1, stack := v :: call.frame.stack.drop argc },
          call.suspended, s.globals⟩

end State

theorem Rests.same {x : Executable} {f g : Frame} {suspended : List Suspended}
    (rests : Rests x f suspended) (code : g.code = f.code) (locals : g.locals = f.locals)
    (depth : g.depth = f.depth) : Rests x g suspended := by
  cases suspended with
  | nil =>
    simp only [Rests] at rests ⊢
    rwa [code, locals, depth]
  | cons w rest =>
    obtain ⟨called, below⟩ := rests
    refine ⟨⟨?_, ?_, ?_, ?_⟩, below⟩
    · rw [code]
      exact called.code
    · rw [code, locals]
      exact called.locals
    · rw [depth]
      exact called.depth
    · rw [code]
      exact called.behind

theorem Rests.depth {x : Executable} {f : Frame} {suspended : List Suspended}
    (rests : Rests x f suspended) : f.depth = suspended.length := by
  induction suspended generalizing f with
  | nil => exact rests.2.2
  | cons w rest ih => rw [rests.1.depth, ih rests.2, List.length_cons]

namespace State

variable {x : Executable} {limit count : Nat} {s after : State}

theorem restsMove (move : Move x limit s after) (rests : Rests x s.frame s.suspended) :
    Rests x after.frame after.suspended := by
  cases move with
  | proceed _ _ => exact rests.same rfl rfl rfl
  | @enter name code running found shallow enough =>
    refine ⟨⟨found, fun param => ?_, rfl, s.frame.ip, rfl, running⟩, rests.same rfl rfl rfl⟩
    refine Bindings.boundOfZip ?_ param
    rw [List.length_reverse, List.length_take, Nat.min_eq_left enough]
  | @resume waiting rest v suspended =>
    rw [suspended] at rests
    exact rests.2.same rfl rfl rfl

theorem reachedRests (reached : Reached x limit count s) : Rests x s.frame s.suspended := by
  induction reached with
  | initial => exact ⟨rfl, rfl, rfl⟩
  | next _ stepped ih => exact restsMove (stepMove stepped) ih

def Confined (s : State) : Prop := ∀ f ∈ s.frames, f.ip ≤ f.code.instructions.size

theorem confinedMove (move : Move x limit s after) (confined : s.Confined) : after.Confined := by
  obtain ⟨_, waiting⟩ := List.forall_mem_cons.mp confined
  have behind {i : Instruction} (running : s.frame.current? = some i) :
      s.frame.ip + 1 ≤ s.frame.code.instructions.size := (Array.getElem?_eq_some_iff.mp running).1
  cases move with
  | proceed running _ => exact List.forall_mem_cons.mpr ⟨behind running, waiting⟩
  | enter running _ _ _ =>
    refine List.forall_mem_cons.mpr ⟨Nat.zero_le _, ?_⟩
    exact List.forall_mem_cons.mpr ⟨behind running, waiting⟩
  | resume suspended =>
    rw [suspended] at waiting
    exact List.forall_mem_cons.mpr (List.forall_mem_cons.mp waiting)

theorem reachedConfined (reached : Reached x limit count s) : s.Confined := by
  induction reached with
  | initial => exact List.forall_mem_cons.mpr ⟨Nat.zero_le _, by simp [State.initial]⟩
  | next _ stepped ih => exact confinedMove (stepMove stepped) ih

theorem Pending.later {call : State} {name : String} {argc : Nat}
    (pending : Pending x limit call name argc s) (stepped : s.step x limit = .next after)
    (deep : call.suspended.length < after.suspended.length) :
    Pending x limit call name argc after := by
  obtain ⟨entered, entering, inside⟩ := pending.since
  exact { pending with since := ⟨entered, entering, inside.next stepped deep⟩ }

theorem reachedPending (reached : Reached x limit count s) {w : Suspended} {rest : List Suspended}
    (waits : w :: rest <:+ s.suspended) :
    ∃ call argc, Pending x limit call w.callee argc s ∧
      w.frame = call.frame.advance (call.frame.stack.drop argc) ∧ rest = call.suspended := by
  induction reached with
  | initial => simp [State.initial] at waits
  | @next count s after earlier stepped ih =>
    -- a frame that waited before this step still waits for the same call
    have older (waited : w :: rest <:+ s.suspended) :
        ∃ call argc, Pending x limit call w.callee argc after ∧
          w.frame = call.frame.advance (call.frame.stack.drop argc) ∧ rest = call.suspended := by
      obtain ⟨call, argc, pending, left, below⟩ := ih waited
      have deep : call.suspended.length < after.suspended.length := by
        rw [← below]
        exact waits.length_le
      exact ⟨call, argc, pending.later stepped deep, left, below⟩
    cases stepMove stepped with
    | proceed _ _ => exact older waits
    | @enter name code running found shallow enough =>
      rcases List.suffix_cons_iff.mp waits with same | waited
      · obtain ⟨rfl, rfl⟩ := List.cons.inj same
        refine ⟨s, code.params.length, ⟨⟨count, earlier⟩, running, _, stepped, .here ?_⟩, rfl, rfl⟩
        exact Nat.lt_succ_self _
      · exact older waited
    | @resume waiting others v suspended =>
      refine older ?_
      rw [suspended]
      exact waits.trans (List.suffix_cons waiting others)

theorem returnStep {w : Suspended} {rest : List Suspended} {v : Value}
    (suspended : s.suspended = w :: rest) (returning : s.frame.current? = some .ret)
    (top : s.frame.stack.head? = some v) :
    s.step x limit = .next ⟨{ w.frame with stack := v :: w.frame.stack }, rest, s.globals⟩ := by
  unfold step
  simp only [returning, Frame.perform, top, resume, suspended]

theorem returnResumes (reached : Reached x limit count s) {w : Suspended} {rest : List Suspended}
    {v : Value} (suspended : s.suspended = w :: rest) (returning : s.frame.current? = some .ret)
    (top : s.frame.stack.head? = some v) :
    ∃ call argc, Pending x limit call w.callee argc s ∧
      s.step x limit = .next
        ⟨{ call.frame with ip := call.frame.ip + 1, stack := v :: call.frame.stack.drop argc },
          call.suspended, s.globals⟩ := by
  have waits : w :: rest <:+ s.suspended := suspended ▸ List.suffix_refl _
  obtain ⟨call, argc, pending, left, below⟩ := reachedPending reached waits
  refine ⟨call, argc, pending, ?_⟩
  rw [returnStep suspended returning top, left, below]
  rfl

section Positions

variable {f g caller : Frame} {w : Suspended} {rest suspended : List Suspended} {globals : Globals} {i : Nat}

theorem stackLength (s : State) : s.stack.length = s.suspended.length + 1 := by
  simp [stack, frames]

theorem stackLast (s : State) : s.stack[s.suspended.length]? = some s.frame := by
  simp [stack, frames]

theorem stackSuspended :
    (State.mk f (w :: rest) globals).stack = (State.mk w.frame rest globals).stack ++ [f] :=
  List.reverse_cons

theorem namesSuspended :
    (State.mk f (w :: rest) globals).names = (State.mk w.frame rest globals).names ++ [w.callee] := by
  simp [names]

theorem stackCases (there : (State.mk f (w :: rest) globals).stack[i]? = some g) :
    (i ≤ rest.length ∧ (State.mk w.frame rest globals).stack[i]? = some g) ∨
      (i = rest.length + 1 ∧ g = f) := by
  have length : (State.mk w.frame rest globals).stack.length = rest.length + 1 := stackLength _
  rw [stackSuspended] at there
  by_cases below : i < (State.mk w.frame rest globals).stack.length
  · rw [List.getElem?_append_left below] at there
    exact .inl ⟨by omega, there⟩
  · have inside := (List.getElem?_eq_some_iff.mp there).1
    rw [List.length_append, List.length_singleton] at inside
    obtain rfl : i = rest.length + 1 := by omega
    rw [← length, List.getElem?_concat_length] at there
    exact .inr ⟨rfl, (Option.some.inj there).symm⟩

theorem restsDepth (rests : Rests x f suspended)
    (there : (State.mk f suspended globals).stack[i]? = some g) : g.depth = i := by
  induction suspended generalizing f with
  | nil =>
    obtain ⟨rfl, rfl⟩ : i = 0 ∧ f = g := by simpa [stack, frames, List.getElem?_singleton] using there
    exact rests.2.2
  | cons w rest ih =>
    rcases stackCases there with ⟨_, below⟩ | ⟨rfl, rfl⟩
    · exact ih rests.2 below
    · exact rests.depth

theorem restsMain (rests : Rests x f suspended) :
    ∃ g, (State.mk f suspended globals).stack[0]? = some g ∧ g.code = x.main ∧ g.locals = .empty := by
  induction suspended generalizing f with
  | nil => exact ⟨f, rfl, rests.1, rests.2.1⟩
  | cons w rest ih =>
    obtain ⟨g, there, main⟩ := ih rests.2
    refine ⟨g, ?_, main⟩
    rw [stackSuspended, List.getElem?_append_left (List.getElem?_eq_some_iff.mp there).1, there]

theorem restsCalled (rests : Rests x f suspended)
    (before : (State.mk f suspended globals).stack[i]? = some caller)
    (there : (State.mk f suspended globals).stack[i + 1]? = some g) :
    ∃ name, (State.mk f suspended globals).names[i]? = some name ∧ Called x caller name g := by
  induction suspended generalizing f with
  | nil => simp [stack, frames] at there
  | cons w rest ih =>
    have length : (State.mk w.frame rest globals).names.length = rest.length := by simp [names]
    -- both positions are below the running frame, or the upper one is the running frame
    rcases stackCases before with ⟨_, outer⟩ | ⟨rfl, _⟩
    · rcases stackCases there with ⟨below, inner⟩ | ⟨last, rfl⟩
      · obtain ⟨name, known, called⟩ := ih rests.2 outer inner
        refine ⟨name, ?_, called⟩
        rw [namesSuspended, List.getElem?_append_left (by omega), known]
      · obtain rfl : i = rest.length := by omega
        obtain rfl : w.frame = caller := Option.some.inj ((stackLast _).symm.trans outer)
        refine ⟨w.callee, ?_, rests.1⟩
        rw [namesSuspended, ← length, List.getElem?_concat_length]
    · rcases stackCases there with ⟨below, _⟩ | ⟨last, _⟩ <;> omega

end Positions
end State

theorem reachedLayered {x : Executable} {limit count : Nat} {s : State}
    (reached : State.Reached x limit count s) : s.Layered x limit := by
  have rests := State.reachedRests reached
  have inner : s.frame ∈ s.frames := List.mem_cons_self
  refine ⟨?_, fun i f there => ⟨State.restsDepth rests there, ?_⟩, State.restsMain rests,
    fun i caller f => State.restsCalled rests, fun w rest v => State.returnResumes reached⟩
  · rw [State.stackLength, ← rests.depth]
    exact Nat.succ_le_succ (State.reachedShallow reached s.frame inner)
  · exact State.reachedConfined reached f (List.mem_reverse.mp (List.mem_of_getElem? there))

def sharedParam : Executable :=
  ⟨⟨[], #[.pushConst 0, .pushConst 1, .pushConst 2, .call "f" 2, .ret], #[.int 5, .int 6, .int 7]⟩,
    .ofPairs [("f", ⟨["a", "a"], #[.loadLocal "a", .ret, .pop], #[]⟩)]⟩

theorem reachedLayeredShared :
    ∃ s, State.Reached sharedParam 1 5 s ∧ s.names = ["f"] ∧
      s.stack.map (fun f => (f.ip, f.stack)) = [(4, [.int 5]), (1, [.int 7])] ∧
      s.Layered sharedParam 1 := by
  have reached : ∃ s, State.Reached sharedParam 1 5 s ∧ s.names = ["f"] ∧
      s.stack.map (fun f => (f.ip, f.stack)) = [(4, [.int 5]), (1, [.int 7])] :=
    ⟨_, .next (.next (.next (.next (.next .initial rfl) rfl) rfl) rfl) rfl, rfl, rfl⟩
  obtain ⟨s, reached, names, stack⟩ := reached
  exact ⟨s, reached, names, stack, reachedLayered reached⟩

end CalcLang
