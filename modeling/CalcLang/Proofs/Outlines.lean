import CalcLang.Proofs.Labels
import CalcLang.Tree.Outline
import Mathlib.Data.List.Basic

/-! Outlines tell programs apart. A line gives the depth and the label of a row, a label gives what it
says of its node, and the rows below a node are the next ones that are further in than its own. So the
outline of a program determines its nodes and the children of each. -/
namespace CalcLang

/-! Lines determine rows. -/

namespace Row

structure Clean (r : Row) : Prop where
  flush : ∀ c ∈ r.label.toList.head?, ¬ c = ' '
  unbroken : '\n' ∉ r.label.toList

theorem Clean.stops {r : Row} (clean : r.Clean) (rest : List Char) :
    ∀ c ∈ (r.label.toList ++ '\n' :: rest).head?, ¬ c = ' ' := by
  have flush := clean.flush
  cases chars : r.label.toList with
  | nil => simp
  | cons first more =>
    rw [chars] at flush
    exact flush

theorem Clean.inside {r : Row} (clean : r.Clean) : ∀ c ∈ r.label.toList, ¬ c = '\n' :=
  fun _ mem same => clean.unbroken (same ▸ mem)

theorem ofNode (depth : Nat) {n : Node} (legible : n.Legible) : Clean ⟨depth, n.label⟩ := by
  constructor
  · obtain ⟨first, more, same, letter, _⟩ := n.kindWord
    have blank : ¬ Letter ' ' := by decide
    rw [Node.labelChars, same]
    intro c head space
    rw [Option.some.inj head, space] at letter
    exact blank letter
  · rw [Node.labelChars, List.mem_append, List.mem_cons, List.mem_append]
    simp [n.kindWord.unbroken, Node.contentUnbroken legible]

theorem textChars (r : Row) :
    r.text.toList = List.replicate (2 * r.depth) ' ' ++ (r.label.toList ++ ['\n']) := by
  unfold text
  rw [String.toList_append, String.toList_append, String.toList_ofList, List.append_assoc]
  rfl

theorem lineUnique {r s : Row} {rest others : List Char} (left : r.Clean) (right : s.Clean)
    (same : r.text.toList ++ rest = s.text.toList ++ others) : r = s ∧ rest = others := by
  have blank (n : Nat) : ∀ c ∈ List.replicate n ' ', c = ' ' := fun c => List.eq_of_mem_replicate
  have ends (rest : List Char) : ∀ c ∈ ('\n' :: rest).head?, ¬ ¬ c = '\n' := by simp
  simp only [textChars, List.append_assoc, List.cons_append, List.nil_append] at same
  obtain ⟨blanks, behind⟩ := runUnique (blank _) (left.stops _) (blank _) (right.stops _) same
  obtain ⟨labels, newlines⟩ := runUnique left.inside (ends _) right.inside (ends _) behind
  have depths : r.depth = s.depth := by
    have lengths := congrArg List.length blanks
    rw [List.length_replicate, List.length_replicate] at lengths
    omega
  refine ⟨?_, (List.cons.inj newlines).2⟩
  cases r
  cases s
  exact (mk.injEq ..).mpr ⟨depths, String.toList_inj.mp labels⟩

end Row

theorem outlineChars (rows : List Row) : (outline rows).toList = rows.flatMap fun r => r.text.toList := by
  simp [outline, String.toList_join, List.flatMap_map]

theorem outlineUnique {rows others : List Row} (left : ∀ r ∈ rows, r.Clean)
    (right : ∀ r ∈ others, r.Clean) (same : outline rows = outline others) : rows = others := by
  have texts := congrArg String.toList same
  rw [outlineChars, outlineChars] at texts
  refine flatMapUnique (fun r => ?_) ?_ left right texts
  · simp [Row.textChars]
  · exact fun r s rows others => Row.lineUnique

/-! Rows determine trees. -/

namespace Expr

inductive Legible : Expr → Prop
  | number {value} (number : ¬ value.IsNaN) : Legible (.number value)
  | var {name} (word : IsWord name.toList) : Legible (.var name)
  | binary {op left right} (first : Legible left) (second : Legible right) :
    Legible (.binary op left right)
  | call {callee args} (called : Legible callee) (each : ∀ arg ∈ args, Legible arg) :
    Legible (.call callee args)

def parts : Expr → Node × List Expr
  | number value => (.number value, [])
  | var name => (.var name, [])
  | binary op left right => (.binary op, [left, right])
  | call (var name) args => (.call name, args)
  | call callee args => (.apply, callee :: args)

def ofParts : Node × List Expr → Option Expr
  | (.number value, _) => some (number value)
  | (.var name, _) => some (var name)
  | (.binary op, [left, right]) => some (binary op left right)
  | (.call name, args) => some (call (var name) args)
  | (.apply, callee :: args) => some (call callee args)
  | _ => none

theorem ofPartsParts (e : Expr) : ofParts e.parts = some e := by
  cases e with
  | call callee args => cases callee <;> rfl
  | _ => rfl

def LegibleParts (u : Node × List Expr) : Prop := u.1.Legible ∧ ∀ child ∈ u.2, child.Legible

theorem partsLegible {e : Expr} (legible : e.Legible) : LegibleParts e.parts := by
  cases legible with
  | number number => exact ⟨number, List.forall_mem_nil _⟩
  | var word => exact ⟨word, List.forall_mem_nil _⟩
  | binary first second => exact ⟨trivial, by simp [parts, first, second]⟩
  | @call callee args called each =>
    cases callee with
    | var name =>
      cases called with
      | var word => exact ⟨word, each⟩
    | _ => exact ⟨trivial, List.forall_mem_cons.mpr ⟨called, each⟩⟩

theorem inductionOnParts {motive : Expr → Prop}
    (step : ∀ e : Expr, (∀ child ∈ e.parts.2, motive child) → motive e) (e : Expr) : motive e := by
  induction e with
  | number value => exact step _ (List.forall_mem_nil _)
  | var name => exact step _ (List.forall_mem_nil _)
  | binary op left right first second => exact step _ (by simp [parts, first, second])
  | call callee args called each =>
    apply step
    cases callee with
    | var name => exact each
    | _ => exact List.forall_mem_cons.mpr ⟨called, each⟩

end Expr

def block (depth : Nat) (parts : Node × List Expr) : List Row :=
  ⟨depth, parts.1.label⟩ :: Expr.rowsOf (depth + 1) parts.2

namespace Expr

theorem rowsBlock (depth : Nat) (e : Expr) : e.rows depth = block depth e.parts := by
  cases e with
  | number value => rfl
  | var name => rfl
  | binary op left right =>
    rw [rows, block, parts, rowsOf, rowsOf, rowsOf, List.append_nil]
    rfl
  | call callee args => cases callee <;> rfl

theorem rowsOfFlat (depth : Nat) (es : List Expr) : rowsOf depth es = es.flatMap (rows depth) := by
  induction es with
  | nil => rfl
  | cons e es ih => rw [rowsOf, ih, List.flatMap_cons]

theorem rowsOfBlocks (depth : Nat) (es : List Expr) :
    rowsOf depth es = (es.map parts).flatMap (block depth) := by
  rw [rowsOfFlat, List.flatMap_map]
  exact congrArg (List.flatMap · es) (funext (rowsBlock depth))

end Expr

def Row.Inside (depth : Nat) (r : Row) : Prop := depth ≤ r.depth ∧ r.Clean

section Blocks

variable {depth : Nat} {u : Node × List Expr} {us vs : List (Node × List Expr)}

theorem blockInside (legible : u.1.Legible)
    (below : ∀ child ∈ u.2, ∀ r ∈ child.rows (depth + 1), r.Inside (depth + 1)) :
    ∀ r ∈ block depth u, r.Inside depth := by
  refine List.forall_mem_cons.mpr ⟨⟨Nat.le_refl depth, Row.ofNode depth legible⟩, fun r mem => ?_⟩
  rw [Expr.rowsOfFlat] at mem
  obtain ⟨child, listed, mem⟩ := List.mem_flatMap.mp mem
  obtain ⟨deep, clean⟩ := below child listed r mem
  exact ⟨Nat.le_of_succ_le deep, clean⟩

theorem Expr.rowsInside {e : Expr} (legible : e.Legible) : ∀ r ∈ e.rows depth, r.Inside depth := by
  induction e using Expr.inductionOnParts generalizing depth with
  | step e ih =>
    obtain ⟨node, children⟩ := Expr.partsLegible legible
    rw [Expr.rowsBlock]
    exact blockInside node fun child mem => ih child mem (children child mem)

theorem Expr.rowsOfInside {es : List Expr} (legible : ∀ e ∈ es, e.Legible) :
    ∀ r ∈ Expr.rowsOf depth es, r.Inside depth := by
  intro r mem
  rw [Expr.rowsOfFlat] at mem
  obtain ⟨e, listed, mem⟩ := List.mem_flatMap.mp mem
  exact Expr.rowsInside (legible e listed) r mem

def Identified (es : List Expr) : Prop :=
  ∀ depth (fs : List Expr), (∀ f ∈ fs, f.Legible) → Expr.rowsOf depth es = Expr.rowsOf depth fs → es = fs

theorem blocksStop (us : List (Node × List Expr)) :
    ∀ r ∈ (us.flatMap (block depth)).head?, ¬ depth < r.depth := by
  cases us with
  | nil => simp
  | cons u us => simp [block]

theorem blocksUnique (left : ∀ u ∈ us, Expr.LegibleParts u) (right : ∀ v ∈ vs, Expr.LegibleParts v)
    (below : ∀ u ∈ us, Identified u.2) (same : us.flatMap (block depth) = vs.flatMap (block depth)) :
    us = vs := by
  have both : ∀ u ∈ us, Expr.LegibleParts u ∧ Identified u.2 := fun u mem => ⟨left u mem, below u mem⟩
  refine flatMapUnique (fun _ => List.cons_ne_nil _ _) ?_ both right same
  intro u v us vs first second same
  obtain ⟨⟨node, inner⟩, children⟩ := first
  obtain ⟨other, outer⟩ := second
  obtain ⟨rows, behind⟩ := List.cons.inj same
  -- the rows below a node are those further in than its own, up to the next one that is not
  obtain ⟨inside, rest⟩ := runUnique (fun r mem => (Expr.rowsOfInside inner r mem).1) (blocksStop us)
    (fun r mem => (Expr.rowsOfInside outer r mem).1) (blocksStop vs) behind
  have nodes := Node.labelUnique node other (congrArg Row.label rows)
  exact ⟨Prod.ext nodes (children _ v.2 outer inside), rest⟩

end Blocks

namespace Expr

theorem partsInjective : Function.Injective parts := by
  have read : ofParts ∘ parts = some := funext ofPartsParts
  exact .of_comp (read ▸ Option.some_injective Expr)

theorem identifiedOf {es : List Expr} (legible : ∀ e ∈ es, e.Legible)
    (below : ∀ e ∈ es, Identified e.parts.2) : Identified es := by
  intro depth fs others same
  rw [rowsOfBlocks, rowsOfBlocks] at same
  apply List.map_injective_iff.mpr partsInjective
  refine blocksUnique ?_ ?_ ?_ same
  · exact List.forall_mem_map.mpr fun e mem => partsLegible (legible e mem)
  · exact List.forall_mem_map.mpr fun f mem => partsLegible (others f mem)
  · exact List.forall_mem_map.mpr below

theorem partsIdentified {e : Expr} (legible : e.Legible) : Identified e.parts.2 := by
  induction e using inductionOnParts with
  | step e ih =>
    obtain ⟨_, children⟩ := partsLegible legible
    exact identifiedOf children fun child mem => ih child mem (children child mem)

end Expr

namespace Statement

def Legible : Statement → Prop
  | define name params body =>
    IsWord name.toList ∧ (∀ param ∈ params, IsWord param.toList) ∧ body.Legible
  | assign name value => IsWord name.toList ∧ value.Legible
  | eval expr => expr.Legible

def parts : Statement → Node × List Expr
  | define name params body => (.define name params, [body])
  | assign name value => (.assign name, [value])
  | eval expr => expr.parts

def ofParts : Node × List Expr → Option Statement
  | (.define name params, [body]) => some (define name params body)
  | (.assign name, [value]) => some (assign name value)
  | parts => (Expr.ofParts parts).map eval

theorem ofPartsParts (s : Statement) : ofParts s.parts = some s := by
  cases s with
  | define name params body => rfl
  | assign name value => rfl
  | eval expr =>
    have read : ofParts expr.parts = (Expr.ofParts expr.parts).map eval := by
      cases expr with
      | call callee args => cases callee <;> rfl
      | _ => rfl
    rw [parts, read, Expr.ofPartsParts]
    rfl

theorem partsInjective : Function.Injective parts := by
  have read : ofParts ∘ parts = some := funext ofPartsParts
  exact .of_comp (read ▸ Option.some_injective Statement)

theorem partsLegible {s : Statement} (legible : s.Legible) : Expr.LegibleParts s.parts := by
  cases s with
  | define name params body => exact ⟨⟨legible.1, legible.2.1⟩, List.forall_mem_singleton.mpr legible.2.2⟩
  | assign name value => exact ⟨legible.1, List.forall_mem_singleton.mpr legible.2⟩
  | eval expr => exact Expr.partsLegible legible

theorem rowsBlock (depth : Nat) (s : Statement) : s.rows depth = block depth s.parts := by
  cases s with
  | define name params body =>
    have label : "FunctionDef(" ++ name ++ ", params=[" ++ ", ".intercalate params ++ "])" =
        (Node.define name params).label := by
      unfold Node.label Node.content
      simp only [String.append_assoc]
      rfl
    rw [rows, label, block, parts, Expr.rowsOf, Expr.rowsOf, List.append_nil]
  | assign name value =>
    rw [rows, block, parts, Expr.rowsOf, Expr.rowsOf, List.append_nil]
    rfl
  | eval expr => exact Expr.rowsBlock depth expr

end Statement

namespace Program

def Legible (p : Program) : Prop := ∀ s ∈ p.statements, s.Legible

theorem rowsBlocks (p : Program) :
    p.rows = ⟨0, "Program:"⟩ :: (p.statements.map Statement.parts).flatMap (block 1) := by
  rw [rows, List.flatMap_map]
  exact congrArg (fun rows => _ :: List.flatMap rows p.statements) (funext (Statement.rowsBlock 1))

theorem rowsClean {p : Program} (legible : p.Legible) : ∀ r ∈ p.rows, r.Clean := by
  have title : Row.Clean ⟨0, "Program:"⟩ := by
    refine ⟨fun c head => ?_, by decide⟩
    rw [← Option.some.inj head]
    decide
  rw [rowsBlocks]
  refine List.forall_mem_cons.mpr ⟨title, fun r mem => ?_⟩
  obtain ⟨u, found, mem⟩ := List.mem_flatMap.mp mem
  obtain ⟨s, listed, rfl⟩ := List.mem_map.mp found
  obtain ⟨node, children⟩ := Statement.partsLegible (legible s listed)
  exact (blockInside node (fun child mem => Expr.rowsInside (children child mem)) r mem).2

end Program

theorem textIdentifiesProgram {p q : Program} (left : p.Legible) (right : q.Legible) :
    p.text = q.text ↔ p = q := by
  constructor
  · intro same
    have rows := outlineUnique (Program.rowsClean left) (Program.rowsClean right) same
    rw [Program.rowsBlocks, Program.rowsBlocks] at rows
    have parts : p.statements.map Statement.parts = q.statements.map Statement.parts := by
      refine blocksUnique ?_ ?_ ?_ (List.cons.inj rows).2
      · exact List.forall_mem_map.mpr fun s mem => Statement.partsLegible (left s mem)
      · exact List.forall_mem_map.mpr fun s mem => Statement.partsLegible (right s mem)
      · refine List.forall_mem_map.mpr fun s mem => ?_
        obtain ⟨_, children⟩ := Statement.partsLegible (left s mem)
        exact Expr.identifiedOf children fun child mem => Expr.partsIdentified (children child mem)
    have statements := List.map_injective_iff.mpr Statement.partsInjective parts
    cases p
    cases q
    exact congrArg Program.mk statements
  · exact congrArg Program.text

theorem textIdentifiesComputedCall :
    (Program.mk [.eval (.call (.call (.var "f") [.var "x"]) [.number (.float 0.5)])]).Legible ∧
    (Program.mk [.eval (.call (.call (.var "f") [.var "x", .number (.float 0.5)]) [])]).Legible ∧
    (Program.mk [.eval (.call (.call (.var "f") [.var "x"]) [.number (.float 0.5)])]).text ≠
      (Program.mk [.eval (.call (.call (.var "f") [.var "x", .number (.float 0.5)]) [])]).text := by
  have name : (Expr.var "f").Legible := .var (by decide)
  have first : (Expr.var "x").Legible := .var (by decide)
  have second : (Expr.number (.float 0.5)).Legible := by
    refine .number ?_
    change ¬ Binary64.isNaN _ = true
    decide +kernel
  have outer : Program.Legible ⟨[.eval (.call (.call (.var "f") [.var "x"]) [.number (.float 0.5)])]⟩ := by
    refine List.forall_mem_singleton.mpr (.call (.call name ?_) ?_)
    · exact List.forall_mem_singleton.mpr first
    · exact List.forall_mem_singleton.mpr second
  have inner : Program.Legible ⟨[.eval (.call (.call (.var "f") [.var "x", .number (.float 0.5)]) [])]⟩ := by
    refine List.forall_mem_singleton.mpr (.call (.call name ?_) (List.forall_mem_nil _))
    exact List.forall_mem_cons.mpr ⟨first, List.forall_mem_singleton.mpr second⟩
  exact ⟨outer, inner, fun same => by simpa using (textIdentifiesProgram outer inner).mp same⟩

end CalcLang
