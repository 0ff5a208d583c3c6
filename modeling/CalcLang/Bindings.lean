/-! Finite maps from names, kept in increasing order of the names. The order makes the
entries a function of the map: two maps with the same look-ups are equal. -/
namespace CalcLang

structure Bindings (α : Type) where
  entries : List (String × α)
  sorted : entries.Pairwise (fun a b => a.1 < b.1)
  deriving DecidableEq

namespace Bindings

variable {α : Type}

def empty : Bindings α := ⟨[], .nil⟩

def find (name : String) : List (String × α) → Option α
  | [] => none
  | (n, v) :: rest => if name = n then some v else find name rest

def get? (b : Bindings α) (name : String) : Option α := find name b.entries

def contains (b : Bindings α) (name : String) : Bool := (b.get? name).isSome

def size (b : Bindings α) : Nat := b.entries.length

def place (name : String) (value : α) : List (String × α) → List (String × α)
  | [] => [(name, value)]
  | (n, v) :: rest =>
    if name < n then (name, value) :: (n, v) :: rest
    else if name = n then (name, value) :: rest
    else (n, v) :: place name value rest

theorem placeNames {name : String} {value : α} {entries : List (String × α)} {e : String × α}
    (mem : e ∈ place name value entries) : e.1 = name ∨ e ∈ entries := by
  induction entries with
  | nil => simp_all [place]
  | cons head rest ih =>
    unfold place at mem
    split at mem
    · rcases List.mem_cons.mp mem with rfl | mem
      · exact .inl rfl
      · exact .inr mem
    · split at mem
      · rcases List.mem_cons.mp mem with rfl | mem
        · exact .inl rfl
        · exact .inr (List.mem_cons_of_mem _ mem)
      · rcases List.mem_cons.mp mem with rfl | mem
        · exact .inr List.mem_cons_self
        · exact (ih mem).imp_right (List.mem_cons_of_mem _)

private theorem nameAfter {name n : String} (notBefore : ¬ name < n) (different : name ≠ n) :
    n < name := by
  rcases Decidable.em (n < name) with after | notAfter
  · exact after
  · exact absurd (String.le_antisymm (String.not_lt.mp notAfter) (String.not_lt.mp notBefore)) different

theorem placeSorted (name : String) (value : α) {entries : List (String × α)}
    (sorted : entries.Pairwise (fun a b => a.1 < b.1)) :
    (place name value entries).Pairwise (fun a b => a.1 < b.1) := by
  induction entries with
  | nil => simp [place]
  | cons head rest ih =>
    have ⟨first, others⟩ := List.pairwise_cons.mp sorted
    unfold place
    split
    · rename_i before
      refine List.pairwise_cons.mpr ⟨fun e mem => ?_, sorted⟩
      rcases List.mem_cons.mp mem with rfl | mem
      · exact before
      · exact String.lt_trans before (first e mem)
    · split
      · rename_i same
        exact List.pairwise_cons.mpr ⟨fun e mem => same ▸ first e mem, others⟩
      · rename_i notBefore different
        refine List.pairwise_cons.mpr ⟨fun e mem => ?_, ih others⟩
        rcases placeNames mem with same | mem
        · rw [same]; exact nameAfter notBefore different
        · exact first e mem

def insert (b : Bindings α) (name : String) (value : α) : Bindings α :=
  ⟨place name value b.entries, placeSorted name value b.sorted⟩

def ofPairs (pairs : List (String × α)) : Bindings α :=
  pairs.foldl (fun b p => b.insert p.1 p.2) empty

@[simp] theorem getEmpty (name : String) : (empty : Bindings α).get? name = none := rfl

private theorem findPlace (name other : String) (value : α) (entries : List (String × α)) :
    find other (place name value entries) = if other = name then some value else find other entries := by
  induction entries with
  | nil => simp [place, find]
  | cons head rest ih =>
    unfold place
    split
    · simp [find]
    · split
      · rename_i same
        by_cases h : other = name <;> simp [find, h, ← same]
      · rename_i different
        by_cases h : other = head.1
        · simp [find, h, Ne.symm different]
        · simp [find, h, ih]

@[simp] theorem getInsert (b : Bindings α) (name other : String) (value : α) :
    (b.insert name value).get? other = if other = name then some value else b.get? other :=
  findPlace name other value b.entries

theorem findMember {name : String} {value : α} {entries : List (String × α)}
    (found : find name entries = some value) : (name, value) ∈ entries := by
  induction entries with
  | nil => simp [find] at found
  | cons head rest ih =>
    simp only [find] at found
    split at found
    · rename_i same
      cases found
      exact List.mem_cons.mpr (.inl (by rw [same]))
    · exact List.mem_cons_of_mem _ (ih found)

end Bindings
end CalcLang
