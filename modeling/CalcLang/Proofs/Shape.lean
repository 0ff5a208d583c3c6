import CalcLang.Proofs.Literals

/-! The shape of compiled code: how its instructions use the pool, the parameters and the operand
stack. Only the top level stores or drops values, and the height of the stack in front of an
instruction is seen from the instructions before it. -/
namespace CalcLang

namespace Instruction

def popped : Instruction → Nat
  | storeVar _ => 1
  | pop => 1
  | apply _ => 2
  | call _ argc => argc
  | _ => 0

def pushed : Instruction → Nat
  | storeVar _ => 0
  | pop => 0
  | ret => 0
  | _ => 1

inductive Plain (params : List String) : Instruction → Prop
  | pushConst (index : Nat) : Plain params (.pushConst index)
  | loadLocal {name : String} (param : name ∈ params) : Plain params (.loadLocal name)
  | loadVar {name : String} (free : name ∉ params) : Plain params (.loadVar name)
  | apply (op : Operator) : Plain params (.apply op)
  | call (name : String) (argc : Nat) : Plain params (.call name argc)

inductive Closing : Instruction → Prop
  | storeVar (name : String) : Closing (.storeVar name)
  | pop : Closing .pop

end Instruction

open Instruction (Plain Closing)

def rise : List Instruction → Int
  | [] => 0
  | i :: rest => i.pushed - i.popped + rise rest

def CodeObject.height (code : CodeObject) (ip : Nat) : Int := rise (code.instructions.toList.take ip)

theorem riseAppend (before after : List Instruction) : rise (before ++ after) = rise before + rise after := by
  induction before with
  | nil => simp [rise]
  | cons i rest ih => simp only [List.cons_append, rise, ih, Int.add_assoc]

/-- The instructions find the operands that they take on a stack of the first height, and leave it
with the second. -/
inductive Stacks : Nat → List Instruction → Nat → Prop
  | nil (height : Nat) : Stacks height [] height
  | cons {height i rest final} (others : Stacks (height + i.pushed) rest final) :
      Stacks (height + i.popped) (i :: rest) final

namespace Stacks

variable {start middle final : Nat} {before after : List Instruction}

theorem single (i : Instruction) (height : Nat) : Stacks (height + i.popped) [i] (height + i.pushed) :=
  .cons (.nil _)

theorem append (first : Stacks start before middle) (second : Stacks middle after final) :
    Stacks start (before ++ after) final := by
  induction first with
  | nil => exact second
  | cons _ ih => exact .cons (ih second)

theorem rises (fitting : Stacks start before final) : (final : Int) = start + rise before := by
  induction fitting with
  | nil => simp [rise]
  | cons _ ih =>
    rw [ih, rise]
    omega

theorem take (fitting : Stacks start before final) (count : Nat) :
    ∃ reached, Stacks start (before.take count) reached := by
  induction fitting generalizing count with
  | nil height => exact ⟨height, by simpa using .nil height⟩
  | @cons height i rest final others ih =>
    cases count with
    | zero => exact ⟨_, .nil _⟩
    | succ count =>
      obtain ⟨reached, inner⟩ := ih count
      exact ⟨reached, .cons inner⟩

theorem nonnegative (fitting : Stacks 0 before final) (count : Nat) : 0 ≤ rise (before.take count) := by
  obtain ⟨reached, inner⟩ := fitting.take count
  have rises := inner.rises
  omega

end Stacks

namespace Expr

variable {params : List String}

theorem codeOfPlain {args : List Expr}
    (each : ∀ arg ∈ args, ∀ pool, ∀ i ∈ arg.code params pool, i.Plain params) (pool : Pool) :
    ∀ i ∈ codeOf params pool args, i.Plain params := by
  induction args generalizing pool with
  | nil => simp [codeOf]
  | cons e rest ih =>
    rw [codeOf, List.forall_mem_append]
    exact ⟨each e List.mem_cons_self pool,
      ih (fun arg mem => each arg (List.mem_cons_of_mem _ mem)) _⟩

theorem codePlain (e : Expr) (pool : Pool) : ∀ i ∈ e.code params pool, i.Plain params := by
  induction e generalizing pool with
  | number value =>
    rw [code, List.forall_mem_singleton]
    exact .pushConst _
  | var name =>
    rw [code, List.forall_mem_singleton]
    split
    · rename_i param
      exact .loadLocal param
    · rename_i free
      exact .loadVar free
  | binary op left right ihLeft ihRight =>
    rw [code, List.forall_mem_append, List.forall_mem_append, List.forall_mem_singleton]
    exact ⟨⟨ihLeft _, ihRight _⟩, .apply op⟩
  | call callee args _ ih =>
    rw [code, List.forall_mem_append, List.forall_mem_singleton]
    exact ⟨codeOfPlain ih _, .call _ _⟩

theorem codeOfStacks {args : List Expr}
    (each : ∀ arg ∈ args, ∀ pool height, Stacks height (arg.code params pool) (height + 1))
    (pool : Pool) (height : Nat) : Stacks height (codeOf params pool args) (height + args.length) := by
  induction args generalizing pool height with
  | nil => exact .nil height
  | cons e rest ih =>
    have others := ih (fun arg mem => each arg (List.mem_cons_of_mem _ mem)) (pool.grow e.literals)
      (height + 1)
    rw [Nat.add_assoc, Nat.add_comm 1] at others
    exact (each e List.mem_cons_self pool height).append others

theorem codeStacks (e : Expr) (pool : Pool) (height : Nat) :
    Stacks height (e.code params pool) (height + 1) := by
  induction e generalizing pool height with
  | number value => exact .single (.pushConst _) height
  | var name =>
    rw [code]
    split
    · exact .single (.loadLocal name) height
    · exact .single (.loadVar name) height
  | binary op left right ihLeft ihRight =>
    exact ((ihLeft pool height).append (ihRight _ (height + 1))).append (.single (.apply op) height)
  | call callee args _ ih => exact (codeOfStacks ih _ height).append (.single (.call _ args.length) height)

end Expr

theorem Statement.topCodeShape (s : Statement) (pool : Pool) :
    (∀ i ∈ s.topCode pool, i.Plain [] ∨ i.Closing) ∧ Stacks 0 (s.topCode pool) 0 := by
  cases s with
  | define name params body => exact ⟨by simp [topCode], .nil 0⟩
  | assign name value =>
    refine ⟨?_, (value.codeStacks pool 0).append (.single (.storeVar name) 0)⟩
    rw [topCode, List.forall_mem_append, List.forall_mem_singleton]
    exact ⟨fun i mem => .inl (value.codePlain pool i mem), .inr (.storeVar name)⟩
  | eval expr =>
    refine ⟨?_, (expr.codeStacks pool 0).append (.single .pop 0)⟩
    rw [topCode, List.forall_mem_append, List.forall_mem_singleton]
    exact ⟨fun i mem => .inl (expr.codePlain pool i mem), .inr .pop⟩

theorem topCodeShape (statements : List Statement) (pool : Pool) :
    (∀ i ∈ topCode pool statements, i.Plain [] ∨ i.Closing) ∧ Stacks 0 (topCode pool statements) 0 := by
  induction statements generalizing pool with
  | nil => exact ⟨by simp [topCode], .nil 0⟩
  | cons s rest ih =>
    obtain ⟨plain, fitting⟩ := s.topCodeShape pool
    obtain ⟨others, later⟩ := ih (pool.grow s.topLiterals)
    rw [topCode, List.forall_mem_append]
    exact ⟨⟨plain, others⟩, fitting.append later⟩

namespace Pool

theorem slotInside {pool : Pool} {values : List Value} {index : Nat}
    (mem : index ∈ pool.slots values) : index < (pool.grow values).length := by
  induction values generalizing pool with
  | nil => cases mem
  | cons value rest ih =>
    rcases List.mem_cons.mp mem with rfl | later
    · have held := slotHolds (prefixGrow (pool.add value) rest)
      exact (List.getElem?_eq_some_iff.mp held).1
    · exact ih later

theorem slotUsed {pool : Pool} {values : List Value} {index : Nat}
    (inside : index < (pool.grow values).length) : index < pool.length ∨ index ∈ pool.slots values := by
  induction values generalizing pool with
  | nil => exact .inl inside
  | cons value rest ih =>
    rcases ih inside with early | later
    · unfold add at early
      split at early
      · exact .inl early
      · rename_i unknown
        -- the slot of a new literal is the one that it adds
        have behind : pool.slot value = pool.length := by
          rw [slot, List.findIdx_eq_length]
          simpa using unknown
        rw [List.length_append, List.length_singleton] at early
        rcases Nat.lt_succ_iff_lt_or_eq.mp early with old | new
        · exact .inl old
        · exact .inr (List.mem_cons.mpr (.inl (new.trans behind.symm)))
    · exact .inr (List.mem_cons_of_mem _ later)

def Apart (pool : Pool) : Prop := pool.Pairwise fun a b => a.agrees b = false ∧ b.agrees a = false

theorem apartAdd {pool : Pool} (apart : pool.Apart) (value : Value) : (pool.add value).Apart := by
  unfold add
  split
  · exact apart
  · rename_i unknown
    refine List.pairwise_append.mpr ⟨apart, List.pairwise_singleton _ _, ?_⟩
    intro w mem v new
    rw [List.mem_singleton.mp new]
    have differs : ¬ w.agrees value = true := fun same => unknown (List.any_eq_true.mpr ⟨w, mem, same⟩)
    exact ⟨by simpa using differs, by simpa using fun same => differs (Value.agreesSymm same)⟩

theorem apartGrow {pool : Pool} (apart : pool.Apart) (values : List Value) :
    (pool.grow values).Apart := by
  induction values generalizing pool with
  | nil => exact apart
  | cons value rest ih => exact ih (apartAdd apart value)

end Pool

/-- What the code of a program is like, whether it belongs to a function or to the top level;
`result` is the height of the stack where it returns. -/
structure CodeObject.Tidy (code : CodeObject) (result : Nat) : Prop where
  returns : ∃ body, code.instructions.toList = body ++ [.ret] ∧ .ret ∉ body
  inside : ∀ index, .pushConst index ∈ code.instructions → index < code.constants.size
  used : ∀ index < code.constants.size, .pushConst index ∈ code.instructions
  apart : code.constants.toList.Pairwise fun a b => a.agrees b = false ∧ b.agrees a = false
  locals : ∀ name, .loadLocal name ∈ code.instructions → name ∈ code.params
  globals : ∀ name, .loadVar name ∈ code.instructions → name ∉ code.params
  heights : ∀ ip < code.instructions.size, 0 ≤ code.height ip
  result : code.height (code.instructions.size - 1) = result

namespace CodeObject

theorem memSlots {code : CodeObject} {index : Nat} :
    index ∈ code.slots ↔ .pushConst index ∈ code.instructions := by
  rw [slots, List.mem_filterMap]
  constructor
  · rintro ⟨i, mem, same⟩
    cases i <;> cases same
    simpa using mem
  · exact fun mem => ⟨_, by simpa using mem, rfl⟩

theorem tidyOf {code : CodeObject} {body : List Instruction} {literals : List Value} {result : Nat}
    (instructions : code.instructions = (body ++ [Instruction.ret]).toArray)
    (constants : code.constants = (Pool.grow [] literals).toArray)
    (slots : code.slots = Pool.slots [] literals)
    (shape : ∀ i ∈ body, i.Plain code.params ∨ i.Closing) (fitting : Stacks 0 body result) :
    code.Tidy result := by
  have listed : code.instructions.toList = body ++ [.ret] := by rw [instructions]
  have size : code.constants.size = (Pool.grow [] literals).length := by rw [constants]; rfl
  have length : code.instructions.size = body.length + 1 := by rw [instructions]; simp
  have before (ip : Nat) (inside : ip ≤ body.length) : code.height ip = rise (body.take ip) := by
    rw [height, listed, List.take_append_of_le_length inside]
  have member {i : Instruction} (mem : i ∈ code.instructions) (other : i ≠ .ret) :
      i.Plain code.params ∨ i.Closing := by
    rw [← Array.mem_toList_iff, listed, List.mem_append, List.mem_singleton] at mem
    exact shape i (mem.resolve_right other)
  refine ⟨⟨body, listed, fun mem => ?_⟩, fun index mem => ?_, fun index inside => ?_, ?_,
    fun name mem => ?_, fun name mem => ?_, fun ip inside => ?_, ?_⟩
  · rcases shape _ mem with plain | closing
    · cases plain
    · cases closing
  · rw [← memSlots, slots] at mem
    rw [size]
    exact Pool.slotInside mem
  · rw [size] at inside
    rw [← memSlots, slots]
    exact (Pool.slotUsed inside).resolve_left (Nat.not_lt_zero _)
  · rw [constants]
    exact Pool.apartGrow .nil literals
  · rcases member mem (by simp) with plain | closing
    · cases plain
      assumption
    · cases closing
  · rcases member mem (by simp) with plain | closing
    · cases plain
      assumption
    · cases closing
  · rw [before ip (by omega)]
    exact fitting.nonnegative ip
  · rw [length, Nat.add_sub_cancel, before _ (Nat.le_refl _), List.take_length]
    have rises := fitting.rises
    omega

end CodeObject

theorem Definition.loweredTidy {d : Definition} (named : d.body.Named) :
    d.lowered.Tidy 1 ∧ ∀ i ∈ d.lowered.instructions, ¬ i.Closing := by
  have plain : ∀ i ∈ d.body.code d.params [], i.Plain d.params := d.body.codePlain []
  constructor
  · exact CodeObject.tidyOf rfl rfl (loweredSlots named) (fun i mem => .inl (plain i mem))
      (d.body.codeStacks [] 0)
  · intro i mem closing
    rw [lowered, List.mem_toArray, List.mem_append, List.mem_singleton] at mem
    rcases mem with inside | rfl
    · cases closing <;> cases plain _ inside
    · cases closing

theorem Program.mainTidy {p : Program} (able : p.Lowerable) : p.lowered.main.Tidy 0 := by
  obtain ⟨shape, fitting⟩ := topCodeShape p.statements []
  exact CodeObject.tidyOf rfl rfl (loweredSlots able) shape fitting

end CalcLang
