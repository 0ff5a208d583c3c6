import CalcLang.Proofs.Meaning
import Mathlib.Data.List.Forall2

/-! What the pool keeps of a literal. Slots are handed out while the pool still grows, and a later
literal takes the first slot that agrees with it; agreeing values are the same, bit by bit, but for the
two zeros of the floats. So every other literal is pushed as it was written, and all float zeros of a
code object are pushed from the slot of the first of them. -/
namespace CalcLang

namespace Binary64

theorem agreesCases {x y : Binary64} (same : x.agrees y = true) :
    x = y ∨ x.magnitude = 0 ∧ y.magnitude = 0 := by
  simp only [agrees, Bool.and_eq_true, Bool.or_eq_true, decide_eq_true_eq] at same
  exact same.2

theorem zeroNumber {x : Binary64} (zero : x.magnitude = 0) : x.isNaN = false := by
  rw [isNaN, zero]
  rfl

end Binary64

namespace Value

def isZero : Value → Bool
  | int _ => false
  | float x => x.magnitude = 0

theorem agreesCases {a b : Value} (same : a.agrees b = true) :
    a = b ∨ a.isZero = true ∧ b.isZero = true := by
  cases a with
  | int m =>
    cases b with
    | int n => exact .inl (congrArg _ (eq_of_beq same))
    | float y => cases same
  | float x =>
    cases b with
    | int n => cases same
    | float y =>
      rcases Binary64.agreesCases same with rfl | ⟨left, right⟩
      · exact .inl rfl
      · exact .inr ⟨decide_eq_true left, decide_eq_true right⟩

theorem zerosAgree {a b : Value} (left : a.isZero = true) (right : b.isZero = true) :
    a.agrees b = true := by
  cases a with
  | int m => cases left
  | float x =>
    cases b with
    | int n => cases right
    | float y =>
      have left : x.magnitude = 0 := of_decide_eq_true left
      have right : y.magnitude = 0 := of_decide_eq_true right
      simp [agrees, Binary64.agrees, Binary64.zeroNumber, left, right]

theorem agreesSymm {a b : Value} (same : a.agrees b = true) : b.agrees a = true := by
  rcases agreesCases same with rfl | ⟨left, right⟩
  · exact same
  · exact zerosAgree right left

end Value

def Instruction.slot? : Instruction → Option Nat
  | pushConst index => some index
  | _ => none

def CodeObject.slots (code : CodeObject) : List Nat := code.instructions.toList.filterMap Instruction.slot?

/-- Every literal is pushed from a slot that holds the same kind and the same bits, except that all
float zeros are pushed from the slot of the first of them, which holds that one. -/
def CodeObject.Keeps (code : CodeObject) (literals : List Value) : Prop :=
  List.Forall₂ (fun literal index => ∃ held, code.constants[index]? = some held ∧
    (literal.isZero = false → held = literal) ∧
    (literal.isZero = true → held.agrees literal = true ∧
      (literals.zip code.slots).find? (·.1.isZero) = some (held, index))) literals code.slots

namespace Pool

def slots (pool : Pool) : List Value → List Nat
  | [] => []
  | value :: rest => pool.slot value :: slots (pool.add value) rest

theorem slotsAppend (pool : Pool) (first others : List Value) :
    pool.slots (first ++ others) = pool.slots first ++ (pool.grow first).slots others := by
  induction first generalizing pool with
  | nil => rfl
  | cons value rest ih => exact congrArg (List.cons _) (ih (pool.add value))

theorem agreesZero {value : Value} (zero : value.isZero = true) (w : Value) :
    w.agrees value = w.isZero := by
  rw [Bool.eq_iff_iff]
  constructor
  · intro same
    rcases Value.agreesCases same with rfl | ⟨left, _⟩
    · exact zero
    · exact left
  · exact fun left => Value.zerosAgree left zero

theorem representZero {pool : Pool} {value : Value} (zero : value.isZero = true) :
    pool.represent value = (pool.find? Value.isZero).getD value := by
  rw [represent, funext (agreesZero zero)]

theorem representOther {pool : Pool} {value : Value} (other : value.isZero = false) :
    pool.represent value = value := by
  rw [represent]
  cases found : pool.find? (·.agrees value) with
  | none => rfl
  | some w =>
    have agrees := List.find?_some found
    rcases Value.agreesCases agrees with same | ⟨_, zero⟩
    · exact same
    · rw [other] at zero
      cases zero

theorem addZero (pool : Pool) (value : Value) :
    (pool.add value).find? Value.isZero = (pool.find? Value.isZero).or ([value].find? Value.isZero) := by
  unfold add
  split
  · rename_i known
    cases zero : value.isZero with
    | false => simp [zero]
    | true =>
      obtain ⟨w, mem, same⟩ := List.any_eq_true.mp known
      rw [agreesZero zero] at same
      have found : (pool.find? Value.isZero).isSome := List.find?_isSome.mpr ⟨w, mem, same⟩
      rw [Option.or_of_isSome found]
  · rw [List.find?_append]

theorem slotZero {pool final : Pool} {value : Value} (zero : value.isZero = true)
    (kept : pool.add value <+: final) : pool.slot value = final.findIdx Value.isZero := by
  obtain ⟨more, rfl⟩ := kept
  rw [slot, funext (agreesZero zero), add, funext (agreesZero zero)]
  split
  · rename_i known
    have inside : pool.findIdx Value.isZero < pool.length := List.findIdx_lt_length.mpr (List.any_eq_true.mp known)
    rw [List.findIdx_append, if_pos inside]
  · rename_i unknown
    have behind : pool.findIdx Value.isZero = pool.length := by
      rw [List.findIdx_eq_length]
      simpa using unknown
    rw [List.append_assoc, List.findIdx_append, behind, if_neg (Nat.lt_irrefl _), List.singleton_append,
      List.findIdx_cons, zero]
    exact (Nat.zero_add _).symm

structure Kept (final : Pool) (first : Option Value) (literal : Value) (index : Nat) (held : Value) : Prop where
  here : final[index]? = some held
  same : literal.isZero = false → held = literal
  shared : literal.isZero = true → first = some held ∧ index = final.findIdx Value.isZero

theorem slotsKeep {pool final : Pool} {values : List Value} (kept : pool.grow values <+: final) :
    List.Forall₂ (fun literal index => ∃ held,
        Kept final ((pool.find? Value.isZero).or (values.find? Value.isZero)) literal index held)
      values (pool.slots values) := by
  induction values generalizing pool with
  | nil => exact .nil
  | cons value rest ih =>
    have first := (prefixGrow (pool.add value) rest).trans kept
    have later := ih kept
    -- the first zero of what has been read so far and what is still to come
    have zeros : ((pool.add value).find? Value.isZero).or (rest.find? Value.isZero) =
        (pool.find? Value.isZero).or ((value :: rest).find? Value.isZero) := by
      rw [addZero, Option.or_assoc, ← List.find?_append, List.singleton_append]
    rw [zeros] at later
    refine .cons ⟨_, slotHolds first, representOther, fun zero => ⟨?_, slotZero zero first⟩⟩ later
    rw [representZero zero, List.find?_cons_of_pos zero]
    cases pool.find? Value.isZero <;> rfl

theorem firstZero {final : Pool} {first : Option Value} {literals : List Value} {slots : List Nat}
    (kept : List.Forall₂ (fun literal index => ∃ held, Kept final first literal index held) literals slots)
    {held : Value} (found : literals.find? Value.isZero = some held) :
    (literals.zip slots).find? (·.1.isZero) = some (held, final.findIdx Value.isZero) := by
  induction kept with
  | nil => cases found
  | @cons literal index rest others own _ ih =>
    obtain ⟨_, own⟩ := own
    rw [List.zip_cons_cons]
    cases zero : literal.isZero with
    | false =>
      rw [List.find?_cons_of_neg (by simp [zero])] at found ⊢
      exact ih found
    | true =>
      rw [List.find?_cons_of_pos zero] at found
      have here : ((literal, index) :: rest.zip others).find? (·.1.isZero) = some (literal, index) :=
        List.find?_cons_of_pos zero
      rw [here, (own.shared zero).2, Option.some.inj found]

end Pool

namespace Expr

theorem codeOfSlots {params : List String} {args : List Expr}
    (each : ∀ arg ∈ args, ∀ pool, (arg.code params pool).filterMap Instruction.slot? =
      Pool.slots pool arg.literals) (pool : Pool) :
    (codeOf params pool args).filterMap Instruction.slot? = pool.slots (literalsOf args) := by
  induction args generalizing pool with
  | nil => rfl
  | cons e rest ih =>
    rw [codeOf, literalsOf, List.filterMap_append, Pool.slotsAppend, each e List.mem_cons_self,
      ih fun arg mem => each arg (List.mem_cons_of_mem _ mem)]

theorem codeSlots {params : List String} (e : Expr) (named : e.Named) (pool : Pool) :
    (e.code params pool).filterMap Instruction.slot? = pool.slots e.literals := by
  induction e generalizing pool with
  | number value => rfl
  | var name =>
    rw [code, literals]
    split <;> rfl
  | binary op left right ihLeft ihRight =>
    obtain ⟨namedLeft, namedRight⟩ := eachCallBinary.mp named
    rw [code, literals, List.filterMap_append, List.filterMap_append, Pool.slotsAppend,
      ihLeft namedLeft, ihRight namedRight]
    exact List.append_nil _
  | call callee args _ ih =>
    obtain ⟨⟨name, rfl⟩, namedArgs⟩ := namedCall.mp named
    rw [code, literals, List.filterMap_append, codeOfSlots fun arg mem => ih arg mem (namedArgs arg mem)]
    exact List.append_nil _

end Expr

theorem topCodeSlots {statements : List Statement} (named : ∀ s ∈ statements, s.expr.Named)
    (pool : Pool) :
    (topCode pool statements).filterMap Instruction.slot? =
      pool.slots (statements.flatMap Statement.topLiterals) := by
  induction statements generalizing pool with
  | nil => rfl
  | cons s rest ih =>
    have own : (s.topCode pool).filterMap Instruction.slot? = pool.slots s.topLiterals := by
      have first := named s List.mem_cons_self
      cases s with
      | define name params body => rfl
      | assign name value =>
        rw [Statement.topCode, List.filterMap_append, Expr.codeSlots value first]
        exact List.append_nil _
      | eval expr =>
        rw [Statement.topCode, List.filterMap_append, Expr.codeSlots expr first]
        exact List.append_nil _
    rw [topCode, List.flatMap_cons, List.filterMap_append, Pool.slotsAppend, own,
      ih fun t mem => named t (List.mem_cons_of_mem _ mem)]

theorem Definition.loweredSlots {d : Definition} (named : d.body.Named) :
    d.lowered.slots = Pool.slots [] d.body.literals := by
  rw [CodeObject.slots, lowered, List.filterMap_append, Expr.codeSlots d.body named]
  exact List.append_nil _

theorem Program.loweredSlots {p : Program} (able : p.Lowerable) :
    p.lowered.main.slots = Pool.slots [] p.topLiterals := by
  rw [CodeObject.slots, lowered, List.filterMap_append, topCodeSlots able.calls]
  exact List.append_nil _

theorem keepsOfSlots {code : CodeObject} {literals : List Value}
    (slots : code.slots = Pool.slots [] literals)
    (pool : code.constants = (Pool.grow [] literals).toArray) : code.Keeps literals := by
  have kept := Pool.slotsKeep (List.prefix_refl (Pool.grow [] literals))
  rw [List.find?_nil, Option.none_or] at kept
  rw [CodeObject.Keeps, slots, pool]
  refine kept.imp fun literal index held => ?_
  obtain ⟨held, here, same, shared⟩ := held
  refine ⟨held, by simpa using here, same, fun zero => ?_⟩
  obtain ⟨first, rfl⟩ := shared zero
  exact ⟨Value.zerosAgree (List.find?_some first) zero, Pool.firstZero kept first⟩

theorem literalsKept {p : Program} {x : Executable} (compiled : p.compile = .ok x) :
    x.main.Keeps p.topLiterals ∧
      ∀ d ∈ p.definitions, ∃ code, x.functions.get? d.name = some code ∧ code.Keeps d.body.literals := by
  have able := Program.lowerableOfCompile compiled
  rw [Program.loweredOfCompile compiled]
  refine ⟨keepsOfSlots (Program.loweredSlots able) rfl, fun d mem => ⟨d.lowered, ?_, ?_⟩⟩
  · rw [Program.loweredFunction, Program.definedFunction able.functions mem, Option.map_some]
  · have named : d.body.Named := able.calls _ (Program.memDefinitions.mp mem)
    exact keepsOfSlots (Definition.loweredSlots named) rfl

def mixedValues : List Value :=
  -- the zeros of both kinds, and words that are not a number: one of them twice, the other with a sign
  [.float (-0.0), .float ⟨0x7ff8000000000001⟩, .int 0, .float 0.0, .float ⟨0xfff0000000000002⟩,
    .float ⟨0x7ff8000000000001⟩, .int 0]

def mixedLiterals : Program :=
  ⟨[.define "f" [] (.call (.var "g") (mixedValues.map .number)), .eval (.number (.float 0.0))]⟩

theorem literalsKeptMixed :
    mixedLiterals.compile = .ok mixedLiterals.lowered ∧
      mixedLiterals.lowered.main.Keeps [.float 0.0] ∧
      ∃ code, mixedLiterals.lowered.functions.get? "f" = some code ∧ code.Keeps mixedValues ∧
        code.slots = [0, 1, 2, 0, 3, 4, 2] ∧
        code.constants = #[.float ⟨0x8000000000000000⟩, .float ⟨0x7ff8000000000001⟩, .int 0,
          .float ⟨0xfff0000000000002⟩, .float ⟨0x7ff8000000000001⟩] := by
  have compiled : mixedLiterals.compile = .ok mixedLiterals.lowered := by decide +kernel
  obtain ⟨top, bodies⟩ := literalsKept compiled
  obtain ⟨code, found, kept⟩ := bodies _ List.mem_cons_self
  have slots : (mixedLiterals.lowered.functions.get? "f").map CodeObject.slots =
      some [0, 1, 2, 0, 3, 4, 2] := by decide +kernel
  have constants : (mixedLiterals.lowered.functions.get? "f").map CodeObject.constants =
      some #[.float ⟨0x8000000000000000⟩, .float ⟨0x7ff8000000000001⟩, .int 0,
        .float ⟨0xfff0000000000002⟩, .float ⟨0x7ff8000000000001⟩] := by decide +kernel
  rw [found] at slots constants
  exact ⟨compiled, top, code, found, kept, Option.some.inj slots, Option.some.inj constants⟩

def bothZeros : Program :=
  ⟨[.assign "a" (.number (.float 0.0)), .assign "b" (.number (.float (-0.0)))]⟩

theorem bothZerosShared :
    bothZeros.compile = .ok bothZeros.lowered ∧
      bothZeros.topLiterals = [.float 0.0, .float (-0.0)] ∧ bothZeros.lowered.main.slots = [0, 0] ∧
      bothZeros.lowered.main.constants[0]? = some (.float 0.0) ∧
      (-0.0 : Binary64).bits ≠ (0.0 : Binary64).bits ∧
      (bothZeros.lowered.run 1000).globals.get? "b" = some (.float 0.0) := by
  decide +kernel

end CalcLang
