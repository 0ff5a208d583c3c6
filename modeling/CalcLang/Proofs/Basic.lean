import CalcLang.Checks.WellFormed
import Mathlib.Control.Monad.Basic

/-! Facts that the theory of several parts rests on: sequenced results, look-ups in maps that
are built from lists of pairs, the definitions of a program and the calls of an expression. -/
namespace CalcLang

theorem bindOk {ε α β : Type} {m : Except ε α} {k : α → Except ε β} {b : β}
    (done : (m >>= k) = .ok b) : ∃ a, m = .ok a ∧ k a = .ok b := by
  cases m with
  | error e => cases done
  | ok a => exact ⟨a, rfl, done⟩

theorem bindError {ε α β : Type} {m : Except ε α} {k : α → Except ε β} {e : ε}
    (failed : (m >>= k) = .error e) : m = .error e ∨ ∃ a, m = .ok a ∧ k a = .error e := by
  cases m with
  | error other =>
    cases failed
    exact .inl rfl
  | ok a => exact .inr ⟨a, rfl, failed⟩

theorem bothOk {ε : Type} {first second : Except ε Unit} :
    (first >>= fun _ => second) = .ok () ↔ first = .ok () ∧ second = .ok () := by
  cases first with
  | error e =>
    constructor
    · intro done
      cases done
    · intro done
      cases done.1
  | ok u => exact (and_iff_right rfl).symm

namespace Bindings

variable {α β : Type}

def insertAll (b : Bindings α) (pairs : List (String × α)) : Bindings α :=
  pairs.foldl (fun b p => b.insert p.1 p.2) b

theorem getInsertAllMap (f : α → β) {b : Bindings α} {c : Bindings β}
    (start : ∀ name, c.get? name = (b.get? name).map f) (pairs : List (String × α)) (name : String) :
    (c.insertAll (pairs.map fun p => (p.1, f p.2))).get? name =
      ((b.insertAll pairs).get? name).map f := by
  induction pairs generalizing b c with
  | nil => exact start name
  | cons p rest ih =>
    refine ih fun other => ?_
    rw [getInsert, getInsert, start other]
    split <;> rfl

theorem getOfPairsMap (f : α → β) (pairs : List (String × α)) (name : String) :
    (ofPairs (pairs.map fun p => (p.1, f p.2))).get? name = ((ofPairs pairs).get? name).map f :=
  getInsertAllMap f (fun _ => rfl) pairs name

theorem memInsertAll {b : Bindings α} {pairs : List (String × α)} {name : String} {v : α}
    (found : (b.insertAll pairs).get? name = some v) : b.get? name = some v ∨ (name, v) ∈ pairs := by
  induction pairs generalizing b with
  | nil => exact .inl found
  | cons p rest ih =>
    rcases ih found with before | after
    · rw [getInsert] at before
      split at before
      · rename_i same
        cases before
        exact .inr (by simp [same])
      · exact .inl before
    · exact .inr (List.mem_cons_of_mem _ after)

theorem memOfPairs {pairs : List (String × α)} {name : String} {v : α}
    (found : (ofPairs pairs).get? name = some v) : (name, v) ∈ pairs := by
  rcases memInsertAll found with before | inside
  · rw [getEmpty] at before
    cases before
  · exact inside

theorem getInsertAllOther {b : Bindings α} {pairs : List (String × α)} {name : String}
    (other : name ∉ pairs.map Prod.fst) : (b.insertAll pairs).get? name = b.get? name := by
  induction pairs generalizing b with
  | nil => rfl
  | cons p rest ih =>
    rw [List.map_cons, List.mem_cons, not_or] at other
    refine (ih other.2).trans ?_
    rw [getInsert, if_neg other.1]

theorem getInsertAllDistinct {b : Bindings α} {pairs : List (String × α)}
    (distinct : (pairs.map Prod.fst).Nodup) {name : String} {v : α} (mem : (name, v) ∈ pairs) :
    (b.insertAll pairs).get? name = some v := by
  induction pairs generalizing b with
  | nil => cases mem
  | cons p rest ih =>
    rw [List.map_cons, List.nodup_cons] at distinct
    rcases List.mem_cons.mp mem with rfl | mem
    · refine (getInsertAllOther distinct.1).trans ?_
      rw [getInsert, if_pos rfl]
    · exact ih distinct.2 mem

theorem boundInsertAll {b : Bindings α} {pairs : List (String × α)} {name : String}
    (bound : (b.get? name).isSome ∨ name ∈ pairs.map Prod.fst) :
    ((b.insertAll pairs).get? name).isSome := by
  induction pairs generalizing b with
  | nil => simpa [insertAll] using bound
  | cons p rest ih =>
    refine ih ?_
    rw [getInsert]
    split
    · exact .inl rfl
    · rename_i other
      simpa [other] using bound

theorem boundOfPairs {pairs : List (String × α)} {name : String} (mem : name ∈ pairs.map Prod.fst) :
    ((ofPairs pairs).get? name).isSome := boundInsertAll (.inr mem)

theorem boundOfZip {names : List String} {values : List α} (lengths : values.length = names.length)
    (name : String) : ((ofPairs (names.zip values)).get? name).isSome ↔ name ∈ names := by
  have keys : (names.zip values).map Prod.fst = names := List.map_fst_zip (Nat.le_of_eq lengths.symm)
  constructor
  · intro bound
    obtain ⟨v, found⟩ := Option.isSome_iff_exists.mp bound
    rw [← keys]
    exact List.mem_map.mpr ⟨(name, v), memOfPairs found, rfl⟩
  · intro mem
    rw [← keys] at mem
    exact boundOfPairs mem

def Fresh (b : Bindings α) (names : List String) : Prop :=
  (∀ name ∈ names, b.get? name = none) ∧ names.Nodup

theorem freshEmpty {names : List String} : (empty : Bindings α).Fresh names ↔ names.Nodup := by
  simp [Fresh]

theorem freshCons {b : Bindings α} {name : String} {names : List String} (v : α) :
    b.Fresh (name :: names) ↔ b.contains name = false ∧ (b.insert name v).Fresh names := by
  simp only [Fresh, List.nodup_cons, List.forall_mem_cons, contains, getInsert]
  constructor
  · rintro ⟨⟨absent, others⟩, apart, distinct⟩
    refine ⟨by rw [absent]; rfl, fun other mem => ?_, distinct⟩
    have different : other ≠ name := fun same => apart (same ▸ mem)
    rw [if_neg different, others other mem]
  · rintro ⟨absent, others, distinct⟩
    have later : ∀ other ∈ names, other ≠ name ∧ b.get? other = none := by
      intro other mem
      have unbound := others other mem
      split at unbound
      · cases unbound
      · rename_i different
        exact ⟨different, unbound⟩
    refine ⟨⟨by simpa using absent, fun other mem => (later other mem).2⟩, fun mem => ?_, distinct⟩
    exact (later name mem).1 rfl

end Bindings

namespace Program

@[simp] theorem definitionsNil : (Program.mk []).definitions = [] := rfl

@[simp] theorem definitionsDefine (name : String) (params : List String) (body : Expr)
    (rest : List Statement) :
    (Program.mk (.define name params body :: rest)).definitions =
      ⟨name, params, body⟩ :: (Program.mk rest).definitions := rfl

theorem memDefinitions {p : Program} {d : Definition} :
    d ∈ p.definitions ↔ .define d.name d.params d.body ∈ p.statements := by
  simp only [definitions, List.mem_filterMap]
  constructor
  · rintro ⟨s, mem, same⟩
    cases s with
    | define name params body =>
      cases same
      exact mem
    | assign name value => cases same
    | eval expr => cases same
  · intro mem
    exact ⟨_, mem, rfl⟩

end Program

namespace Expr

def EachCall (property : Expr → List Expr → Prop) (e : Expr) : Prop := ∀ c ∈ e.calls, property c.1 c.2

variable {property : Expr → List Expr → Prop}

@[simp] theorem eachCallNumber (value : Value) : (number value).EachCall property := by
  intro c mem
  simp [calls] at mem

@[simp] theorem eachCallVar (name : String) : (var name).EachCall property := by
  intro c mem
  simp [calls] at mem

@[simp] theorem eachCallBinary {op : Operator} {left right : Expr} :
    (binary op left right).EachCall property ↔ left.EachCall property ∧ right.EachCall property := by
  simp only [EachCall, calls, List.mem_append, or_imp, forall_and]

theorem memCallsOf {args : List Expr} {c : Expr × List Expr} :
    c ∈ callsOf args ↔ ∃ arg ∈ args, c ∈ arg.calls := by
  induction args with
  | nil => simp [callsOf]
  | cons e rest ih => simp [callsOf, ih]

@[simp] theorem eachCallCall {callee : Expr} {args : List Expr} :
    (call callee args).EachCall property ↔
      property callee args ∧ callee.EachCall property ∧ ∀ arg ∈ args, arg.EachCall property := by
  simp only [EachCall, calls, List.forall_mem_cons, List.mem_append, memCallsOf, or_imp, forall_and]
  refine and_congr_right fun _ => and_congr_right fun _ => ⟨fun all arg mem c inside => ?_, ?_⟩
  · exact all c ⟨arg, mem, inside⟩
  · rintro all c ⟨arg, mem, inside⟩
    exact all arg mem c inside

theorem EachCall.mono {weaker : Expr → List Expr → Prop} {e : Expr} (each : e.EachCall property)
    (weaken : ∀ callee args, property callee args → weaker callee args) : e.EachCall weaker :=
  fun c mem => weaken c.1 c.2 (each c mem)

def Named (e : Expr) : Prop := e.EachCall fun callee _ => ∃ name, callee = .var name

@[simp] theorem namedCall {callee : Expr} {args : List Expr} :
    (call callee args).Named ↔ (∃ name, callee = var name) ∧ ∀ arg ∈ args, arg.Named := by
  rw [Named, eachCallCall]
  constructor
  · rintro ⟨name, _, all⟩
    exact ⟨name, all⟩
  · rintro ⟨⟨name, rfl⟩, all⟩
    exact ⟨⟨name, rfl⟩, eachCallVar name, all⟩

end Expr
end CalcLang
