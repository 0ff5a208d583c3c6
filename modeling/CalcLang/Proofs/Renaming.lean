import CalcLang.Proofs.Exposure
import Mathlib.Data.List.Nodup

/-! Other names for the parameters of a function. A variable that is read is looked for among the
parameters first and among the globals after that, and functions have names of their own; so new
names may be those of globals, of functions or of other parameters, as long as the body does not
read them already. The two programs are compared through their meaning: a call binds the same
values under other names, and every variable finds the value that it found before. -/
namespace CalcLang

namespace Expr

mutual

def rename (f : String → String) : Expr → Expr
  | number value => number value
  | var name => var (f name)
  | binary op left right => binary op (left.rename f) (right.rename f)
  | call callee args => call callee (renameAll f args)

def renameAll (f : String → String) : List Expr → List Expr
  | [] => []
  | e :: rest => e.rename f :: renameAll f rest

end

variable {f : String → String}

theorem renameAllMap (args : List Expr) : renameAll f args = args.map (rename f) := by
  induction args with
  | nil => rfl
  | cons e rest ih => rw [renameAll, ih, List.map_cons]

theorem renameId (e : Expr) : e.rename id = e := by
  induction e with
  | number value => rfl
  | var name => rfl
  | binary op left right ihLeft ihRight => rw [rename, ihLeft, ihRight]
  | call callee args _ ih =>
    have same : args.map (rename id) = args := (List.map_congr_left ih).trans (List.map_id' args)
    rw [rename, renameAllMap, same]

theorem renameReads {e : Expr} (named : e.Named) : (e.rename f).reads = e.reads.map f := by
  induction e with
  | number value => rfl
  | var name => rfl
  | binary op left right ihLeft ihRight =>
    obtain ⟨namedLeft, namedRight⟩ := eachCallBinary.mp named
    rw [rename, reads, reads, ihLeft namedLeft, ihRight namedRight, List.map_append]
  | call callee args _ ih =>
    obtain ⟨⟨name, rfl⟩, namedArgs⟩ := namedCall.mp named
    have each : args.map (fun arg => (arg.rename f).reads) = args.map fun arg => arg.reads.map f :=
      List.map_congr_left fun arg mem => ih arg mem (namedArgs arg mem)
    rw [rename, reads, reads, renameAllMap, readsOfMap, readsOfMap, List.map_map, List.map_flatten,
      List.map_map]
    exact congrArg List.flatten each

theorem renameFits {signatures : Signatures} {e : Expr} (fits : e.EachCall (Fits signatures)) :
    (e.rename f).EachCall (Fits signatures) := by
  induction e with
  | number value => exact eachCallNumber value
  | var name => exact eachCallVar (f name)
  | binary op left right ihLeft ihRight =>
    obtain ⟨left, right⟩ := eachCallBinary.mp fits
    exact eachCallBinary.mpr ⟨ihLeft left, ihRight right⟩
  | call callee args _ ih =>
    obtain ⟨⟨name, same, arity⟩, inside, each⟩ := eachCallCall.mp fits
    rw [rename, renameAllMap]
    refine eachCallCall.mpr ⟨⟨name, same, by rw [arity, List.length_map]⟩, inside, fun arg mem => ?_⟩
    obtain ⟨original, inside, rfl⟩ := List.mem_map.mp mem
    exact ih original inside (each original inside)

theorem renameAllLiterals {args : List Expr} (each : ∀ arg ∈ args, (arg.rename f).literals = arg.literals) :
    literalsOf (renameAll f args) = literalsOf args := by
  induction args with
  | nil => rfl
  | cons e rest ih =>
    rw [renameAll, literalsOf, literalsOf, each e List.mem_cons_self,
      ih fun arg mem => each arg (List.mem_cons_of_mem _ mem)]

theorem renameLiterals (e : Expr) : (e.rename f).literals = e.literals := by
  induction e with
  | number value => rfl
  | var name => rfl
  | binary op left right ihLeft ihRight => rw [rename, literals, literals, ihLeft, ihRight]
  | call callee args _ ih => rw [rename, literals, literals, renameAllLiterals ih]

theorem renameAllPooled {args : List Expr}
    (each : ∀ arg ∈ args, ∀ pool, (arg.rename f).pooled pool = (arg.pooled pool).rename f) (pool : Pool) :
    pooledOf pool (renameAll f args) = renameAll f (pooledOf pool args) := by
  induction args generalizing pool with
  | nil => rfl
  | cons e rest ih =>
    rw [renameAll, pooledOf, pooledOf, renameAll, each e List.mem_cons_self, renameLiterals,
      ih fun arg mem => each arg (List.mem_cons_of_mem _ mem)]

theorem renamePooled (pool : Pool) (e : Expr) : (e.rename f).pooled pool = (e.pooled pool).rename f := by
  induction e generalizing pool with
  | number value => rfl
  | var name => rfl
  | binary op left right ihLeft ihRight =>
    rw [rename, pooled, pooled, rename, ihLeft, ihRight, renameLiterals]
  | call callee args _ ih => rw [rename, pooled, pooled, rename, renameAllPooled fun arg mem _ => ih arg mem _]

end Expr

namespace Bindings

variable {α : Type}

theorem getInsertAllRenamed {f : String → String} {b c : Bindings α} {pairs : List (String × α)}
    {name : String} (apart : ∀ p ∈ pairs, f p.1 = f name → p.1 = name)
    (start : c.get? (f name) = b.get? name) :
    (c.insertAll (pairs.map fun p => (f p.1, p.2))).get? (f name) = (b.insertAll pairs).get? name := by
  induction pairs generalizing b c with
  | nil => exact start
  | cons p rest ih =>
    refine ih (fun q mem => apart q (List.mem_cons_of_mem _ mem)) ?_
    have merged : f name = f p.1 ↔ name = p.1 :=
      ⟨fun same => (apart p List.mem_cons_self same.symm).symm, congrArg f⟩
    simp only [getInsert, merged, start]

theorem getZipRenamed {f : String → String} {names : List String} {values : List α} {name : String}
    (apart : ∀ other ∈ names, f other = f name → other = name) :
    (ofPairs ((names.map f).zip values)).get? (f name) = (ofPairs (names.zip values)).get? name := by
  rw [List.zip_map_left]
  exact getInsertAllRenamed (fun p mem => apart p.1 (List.of_mem_zip mem).1) rfl

end Bindings

def Definition.rename (f : String → String) (d : Definition) : Definition :=
  ⟨d.name, d.params.map f, d.body.rename f⟩

theorem Definition.renameId (d : Definition) : d.rename id = d := by
  rw [rename, List.map_id, Expr.renameId]

/-- Every variable that the body reads still means the same: no other parameter takes its name, and
it keeps its own if it is no parameter. -/
def Definition.Apart (f : String → String) (d : Definition) : Prop :=
  ∀ name ∈ d.body.reads, (∀ param ∈ d.params, f param = f name → param = name) ∧
    (name ∉ d.params → f name = name)

structure Renames (functions others : Bindings Definition) : Prop where
  absent : ∀ {name}, functions.get? name = none → others.get? name = none
  present : ∀ {name d}, functions.get? name = some d →
    ∃ f, others.get? name = some (d.rename f) ∧ d.Apart f

namespace Expr

/-- Locals under other names: a variable that is read has the same value, and it keeps its name
if it is no local. -/
def Carried (f : String → String) (locals renamed : Bindings Value) (e : Expr) : Prop :=
  ∀ name ∈ e.reads, renamed.get? (f name) = locals.get? name ∧
    (locals.get? name = none → f name = name)

theorem carriedCall {f : String → String} {d : Definition} (apart : d.Apart f) {values : List Value}
    (lengths : values.length = d.params.length) :
    d.body.Carried f (.ofPairs (d.params.zip values)) (.ofPairs ((d.params.map f).zip values)) := by
  intro name read
  obtain ⟨unmerged, kept⟩ := apart name read
  refine ⟨Bindings.getZipRenamed unmerged, fun unbound => kept fun param => ?_⟩
  have bound := (Bindings.boundOfZip lengths name).mpr param
  rw [unbound] at bound
  cases bound

variable {functions others : Bindings Definition} {globals : Globals} {limit depth : Nat}
  {locals renamed : Bindings Value} {f : String → String}

theorem evaluateAllRename {args : List Expr}
    (each : ∀ arg ∈ args, (arg.rename f).evaluate others globals limit depth renamed =
      arg.evaluate functions globals limit depth locals) :
    evaluateAll others globals limit depth renamed (renameAll f args) =
      evaluateAll functions globals limit depth locals args := by
  induction args with
  | nil => rw [renameAll, evaluateAll, evaluateAll]
  | cons e rest ih =>
    rw [renameAll, evaluateAll, evaluateAll, each e List.mem_cons_self,
      ih fun arg mem => each arg (List.mem_cons_of_mem _ mem)]

theorem evaluateRename (renames : Renames functions others) {e : Expr}
    (carried : e.Carried f locals renamed) :
    (e.rename f).evaluate others globals limit depth renamed =
      e.evaluate functions globals limit depth locals := by
  induction depth, e using inductionByDepth functions limit generalizing f locals renamed with
  | number depth value => rw [rename, evaluate, evaluate]
  | var depth name =>
    obtain ⟨same, kept⟩ := carried name (by simp [reads])
    rw [rename, evaluate, evaluate, same]
    cases bound : locals.get? name with
    | some v => rfl
    | none => rw [kept bound]
  | binary depth op left right ihLeft ihRight =>
    rw [rename, evaluate, evaluate, ihLeft fun name read => carried name (by simp [reads, read]),
      ihRight fun name read => carried name (by simp [reads, read])]
  | call depth callee args ih deeper =>
    rw [rename]
    cases callee with
    | var name =>
      have all := evaluateAllRename fun arg mem => ih arg mem fun name read =>
        carried name (by rw [reads]; exact memReadsOf.mpr ⟨arg, mem, read⟩)
      rw [evaluate, evaluate, all, renameAllMap, List.length_map]
      cases evaluated : evaluateAll functions globals limit depth locals args with
      | error e => rfl
      | ok values =>
        have count := evaluateAllLength evaluated
        cases found : functions.get? name with
        | none => rw [renames.absent found]
        | some d =>
          -- the arguments are read under the caller's names, the body under its own
          obtain ⟨g, renamedFound, apart⟩ := renames.present found
          simp only [renamedFound, Definition.rename, List.length_map, bind, Except.bind]
          split
          · rfl
          · split
            · rfl
            · exact deeper name d found (by omega) (carriedCall apart (by omega))
    | _ => simp only [evaluate]

theorem evaluateAlike (renames : Renames functions others) (e : Expr) :
    e.evaluate others globals limit depth locals = e.evaluate functions globals limit depth locals := by
  have same : (e.rename id).evaluate others globals limit depth locals =
      e.evaluate functions globals limit depth locals :=
    evaluateRename renames fun name _ => ⟨rfl, fun _ => rfl⟩
  rwa [renameId] at same

end Expr

def newName (params fresh : List String) (name : String) : String :=
  ((Bindings.ofPairs (params.zip fresh)).get? name).getD name

section Names

variable {params fresh : List String}

theorem newNameOther (length : fresh.length = params.length) {name : String} (other : name ∉ params) :
    newName params fresh name = name := by
  have unbound : (Bindings.ofPairs (params.zip fresh)).get? name = none := by
    rw [← Option.not_isSome_iff_eq_none, Bindings.boundOfZip length]
    exact other
  rw [newName, unbound, Option.getD_none]

theorem newNameParams (length : fresh.length = params.length) (distinct : params.Nodup) :
    params.map (newName params fresh) = fresh := by
  have keys : (params.zip fresh).map Prod.fst = params := List.map_fst_zip (Nat.le_of_eq length.symm)
  have values : (params.zip fresh).map Prod.snd = fresh := List.map_snd_zip (Nat.le_of_eq length)
  have each : ∀ pair ∈ params.zip fresh, newName params fresh pair.1 = pair.2 := by
    intro pair mem
    have found : (Bindings.ofPairs (params.zip fresh)).get? pair.1 = some pair.2 :=
      Bindings.getInsertAllDistinct (keys.symm ▸ distinct) mem
    rw [newName, found, Option.getD_some]
  calc params.map (newName params fresh)
    _ = ((params.zip fresh).map Prod.fst).map (newName params fresh) := by rw [keys]
    _ = (params.zip fresh).map Prod.snd := by
      rw [List.map_map]
      exact List.map_congr_left each
    _ = fresh := values

end Names

structure Definition.Takes (d : Definition) (fresh : List String) : Prop where
  distinct : fresh.Nodup
  length : fresh.length = d.params.length
  unused : ∀ name ∈ fresh, name ∉ d.body.reads

namespace Definition

def withParams (fresh : List String) (d : Definition) : Definition :=
  ⟨d.name, fresh, d.body.rename (newName d.params fresh)⟩

variable {d : Definition} {fresh : List String}

theorem withParamsRename (takes : d.Takes fresh) (distinct : d.params.Nodup) :
    d.withParams fresh = d.rename (newName d.params fresh) := by
  rw [withParams, rename, newNameParams takes.length distinct]

theorem Takes.apart (takes : d.Takes fresh) (distinct : d.params.Nodup) :
    d.Apart (newName d.params fresh) := by
  have images := newNameParams takes.length distinct
  intro name read
  refine ⟨fun param mem merged => ?_, newNameOther takes.length⟩
  rcases Decidable.em (name ∈ d.params) with own | other
  · exact List.inj_on_of_nodup_map (images.symm ▸ takes.distinct) mem own merged
  · -- a new name would be the name of a variable that the body reads
    rw [newNameOther takes.length other] at merged
    have taken : name ∈ fresh := by
      rw [← images, ← merged]
      exact List.mem_map_of_mem mem
    exact absurd read (takes.unused name taken)

def renamed (target : String) (fresh : List String) (d : Definition) : Definition :=
  if d.name = target then d.withParams fresh else d

@[simp] theorem renamedName (target : String) (fresh : List String) (d : Definition) :
    (d.renamed target fresh).name = d.name := by
  rw [renamed]
  split <;> rfl

end Definition

def Statement.renamed (target : String) (fresh : List String) : Statement → Statement
  | define name params body =>
    if name = target then define name fresh (body.rename (newName params fresh))
    else define name params body
  | s => s

def Program.renamed (p : Program) (target : String) (fresh : List String) : Program :=
  ⟨p.statements.map (Statement.renamed target fresh)⟩

section Statements

variable {target : String} {fresh : List String}

theorem renamedDefinitions (statements : List Statement) :
    (Program.mk (statements.map (Statement.renamed target fresh))).definitions =
      (Program.mk statements).definitions.map (Definition.renamed target fresh) := by
  induction statements with
  | nil => rfl
  | cons s rest ih =>
    cases s with
    | assign name value => exact ih
    | eval expr => exact ih
    | define name params body =>
      rw [List.map_cons, Program.definitionsDefine, List.map_cons, ← ih, Statement.renamed,
        Definition.renamed]
      split <;> rfl

theorem renamedAssigned (statements : List Statement) :
    (Program.mk (statements.map (Statement.renamed target fresh))).assigned =
      (Program.mk statements).assigned := by
  induction statements with
  | nil => rfl
  | cons s rest ih =>
    cases s with
    | assign name value => exact congrArg (List.cons name) ih
    | eval expr => exact ih
    | define name params body =>
      rw [List.map_cons, Statement.renamed]
      split <;> exact ih

theorem Statement.renamedPooled (pool : Pool) (s : Statement) :
    (s.renamed target fresh).pooled pool = (s.pooled pool).renamed target fresh := by
  cases s with
  | assign name value => rfl
  | eval expr => rfl
  | define name params body =>
    rw [renamed, pooled, renamed]
    split
    · rw [pooled, Expr.renamePooled]
    · rfl

theorem Statement.renamedLiterals (s : Statement) :
    (s.renamed target fresh).topLiterals = s.topLiterals := by
  cases s with
  | assign name value => rfl
  | eval expr => rfl
  | define name params body =>
    rw [renamed]
    split <;> rfl

theorem pooledStatementsRenamed (pool : Pool) (statements : List Statement) :
    pooledStatements pool (statements.map (Statement.renamed target fresh)) =
      (pooledStatements pool statements).map (Statement.renamed target fresh) := by
  induction statements generalizing pool with
  | nil => rfl
  | cons s rest ih =>
    rw [List.map_cons, pooledStatements, pooledStatements, List.map_cons, Statement.renamedPooled,
      Statement.renamedLiterals, ih]

variable {functions others : Bindings Definition} {limit : Nat}

theorem Statement.effectRenamed (renames : Renames functions others) (globals : Globals) (s : Statement) :
    (s.renamed target fresh).effect others limit globals = s.effect functions limit globals := by
  cases s with
  | assign name value =>
    exact congrArg (· >>= fun v => .ok (globals.insert name v)) (Expr.evaluateAlike renames value)
  | eval expr => exact congrArg (· >>= fun _ => .ok globals) (Expr.evaluateAlike renames expr)
  | define name params body =>
    rw [renamed]
    split <;> rfl

theorem evaluateStatementsRenamed (renames : Renames functions others) (globals : Globals)
    (statements : List Statement) :
    evaluateStatements others limit globals (statements.map (Statement.renamed target fresh)) =
      evaluateStatements functions limit globals statements := by
  induction statements generalizing globals with
  | nil => rfl
  | cons s rest ih =>
    rw [List.map_cons, evaluateStatementsCons, evaluateStatementsCons, Statement.effectRenamed renames]
    congr 1
    funext after
    exact ih after

end Statements

namespace Program

variable {p : Program} {d : Definition} {fresh : List String}

theorem definedOnce (accepted : p.check = .ok ()) {e : Definition} (first : d ∈ p.definitions)
    (second : e ∈ p.definitions) (same : e.name = d.name) : e = d :=
  List.inj_on_of_nodup_map (checkedProgram.mp accepted).1 second first same

theorem paramsDistinct (accepted : p.check = .ok ()) (defined : d ∈ p.definitions) : d.params.Nodup :=
  (wellFormedOfCheck accepted).parameters d defined

theorem renamedFunction (target name : String) :
    (p.renamed target fresh).functions.get? name =
      (p.functions.get? name).map (Definition.renamed target fresh) := by
  have found := Bindings.getOfPairsMap (Definition.renamed target fresh)
    (p.definitions.map fun d => (d.name, d)) name
  rw [functions, renamed, renamedDefinitions, List.map_map]
  rw [List.map_map] at found
  simp only [Function.comp_def, Definition.renamedName] at found ⊢
  exact found

theorem renamedFunctions (accepted : p.check = .ok ()) (defined : d ∈ p.definitions)
    (takes : d.Takes fresh) : Renames p.functions (p.renamed d.name fresh).functions := by
  refine ⟨fun absent => by rw [renamedFunction, absent, Option.map_none], fun {name e} found => ?_⟩
  rw [renamedFunction, found, Option.map_some, Definition.renamed]
  split
  · rename_i same
    cases definedOnce accepted defined (functionDefined found).1 same
    have distinct := paramsDistinct accepted defined
    exact ⟨_, by rw [Definition.withParamsRename takes distinct], takes.apart distinct⟩
  · exact ⟨id, by rw [Definition.renameId], fun name _ => ⟨fun param _ same => same, fun _ => rfl⟩⟩

theorem evaluateRenamed (accepted : p.check = .ok ()) (defined : d ∈ p.definitions)
    (takes : d.Takes fresh) (limit : Nat) :
    (p.renamed d.name fresh).evaluate limit = p.evaluate limit :=
  evaluateStatementsRenamed (renamedFunctions accepted defined takes) .empty p.statements

theorem renamedPooled (target : String) : (p.renamed target fresh).pooled = p.pooled.renamed target fresh :=
  congrArg Program.mk (pooledStatementsRenamed [] p.statements)

theorem renamedSignatures (accepted : p.check = .ok ()) (defined : d ∈ p.definitions)
    (length : fresh.length = d.params.length) : (p.renamed d.name fresh).signatures = p.signatures := by
  rw [signatures, signatures, renamed, renamedDefinitions, List.map_map]
  refine congrArg Bindings.ofPairs (List.map_congr_left fun e mem => ?_)
  rw [Function.comp, Definition.renamedName, Definition.renamed]
  split
  · rename_i same
    cases definedOnce accepted defined mem same
    rw [Definition.withParams, length]
  · rfl

end Program

theorem Definition.admittedRenamed {d : Definition} {fresh : List String} (takes : d.Takes fresh)
    {signatures : Signatures} {globals : List String} {before : List Statement}
    (admitted : (Statement.define d.name d.params d.body).Admitted signatures globals before) :
    (Statement.define d.name fresh (d.body.rename (newName d.params fresh))).Admitted signatures globals
      before := by
  have named : d.body.Named := admitted.calls.mono fun callee args fits => by
    obtain ⟨name, same, _⟩ := fits
    exact ⟨name, same⟩
  refine ⟨takes.distinct, Expr.renameFits admitted.calls, fun name read => ?_⟩
  rw [Statement.expr, Expr.renameReads named] at read
  obtain ⟨original, inside, rfl⟩ := List.mem_map.mp read
  rcases Decidable.em (original ∈ d.params) with own | other
  · have images := newNameParams takes.length admitted.parameters
    have taken : newName d.params fresh original ∈ d.params.map (newName d.params fresh) :=
      List.mem_map_of_mem own
    rw [images] at taken
    exact .inl taken
  · rw [newNameOther takes.length other]
    exact .inr ((admitted.reads original inside).resolve_left other)

theorem Program.renamedAccepted {p : Program} (accepted : p.check = .ok ()) {d : Definition}
    (defined : d ∈ p.definitions) {fresh : List String} (takes : d.Takes fresh) :
    (p.renamed d.name fresh).check = .ok () := by
  obtain ⟨functions, admitted⟩ := checkedProgram.mp accepted
  refine checkedProgram.mpr ⟨?_, fun before s after split => ?_⟩
  · rw [renamed, renamedDefinitions, List.map_map]
    simpa [Function.comp_def] using functions
  · rw [renamedSignatures accepted defined takes.length]
    obtain ⟨first, others, whole, rfl, rest⟩ := List.map_eq_append_iff.mp split
    obtain ⟨original, last, rfl, rfl, _⟩ := List.map_eq_cons_iff.mp rest
    have own := admitted first original last whole
    have kept : (original.renamed d.name fresh).Admitted p.signatures [] first := by
      cases original with
      | assign name value => exact own
      | eval expr => exact own
      | define name params body =>
        rw [Statement.renamed]
        split
        · rename_i same
          have mem : ⟨name, params, body⟩ ∈ p.definitions := memDefinitions.mpr (by rw [whole]; simp)
          cases definedOnce accepted defined mem same
          exact Definition.admittedRenamed takes own
        · exact own
    refine ⟨kept.parameters, kept.calls, ?_⟩
    rw [renamedAssigned]
    exact kept.reads

theorem renamedParamsAgree {p : Program} (accepted : p.check = .ok ()) {d : Definition}
    (defined : d ∈ p.definitions) {fresh : List String} (takes : d.Takes fresh) :
    (p.renamed d.name fresh).check = .ok () ∧
      ∃ x y, p.compile = .ok x ∧ (p.renamed d.name fresh).compile = .ok y ∧
        ∀ limit, y.run limit = x.run limit := by
  have accepts := Program.renamedAccepted accepted defined takes
  have first := Program.compileChecked accepted
  have second := Program.compileChecked accepts
  refine ⟨accepts, _, _, first, second, fun limit => ?_⟩
  have pooledDefined : d.pooled ∈ p.pooled.definitions := by
    rw [Program.pooled, Program.pooledDefinitions]
    exact List.mem_map_of_mem defined
  have pooledTakes : d.pooled.Takes fresh := by
    refine ⟨takes.distinct, takes.length, fun name mem => ?_⟩
    rw [Definition.pooled, Expr.pooledReads]
    exact takes.unused name mem
  calc (p.renamed d.name fresh).lowered.run limit
    _ = (p.renamed d.name fresh).pooled.evaluate limit := Program.runPooled second limit
    _ = (p.pooled.renamed d.pooled.name fresh).evaluate limit := by rw [Program.renamedPooled]; rfl
    _ = p.pooled.evaluate limit :=
      Program.evaluateRenamed (p.pooledCheck.trans accepted) pooledDefined pooledTakes limit
    _ = p.lowered.run limit := (Program.runPooled first limit).symm

def weighted : Definition :=
  ⟨"f", ["a", "b"], .binary .sub (.call (.var "g") [.var "a"])
    (.binary .mul (.var "b") (.call (.var "g") [.var "b"]))⟩

def scopes : Program :=
  ⟨[.assign "x" (.number (.int 10)),
    .define "g" ["n"] (.binary .add (.var "n") (.var "x")),
    .define weighted.name weighted.params weighted.body,
    .assign "z" (.call (.var "f") [.number (.int 2), .number (.int 3)])]⟩

def scopesShared : Program :=
  ⟨[.assign "x" (.number (.int 10)),
    .define "g" ["n"] (.binary .add (.var "n") (.var "x")),
    .define "f" ["x", "g"] (.binary .sub (.call (.var "g") [.var "x"])
      (.binary .mul (.var "g") (.call (.var "g") [.var "g"]))),
    .assign "z" (.call (.var "f") [.number (.int 2), .number (.int 3)])]⟩

theorem renamedParamsAgreeShared :
    scopes.check = .ok () ∧ weighted ∈ scopes.definitions ∧ weighted.Takes ["x", "g"] ∧
      scopes.renamed weighted.name ["x", "g"] = scopesShared ∧ scopesShared.check = .ok () ∧
      ∃ x y, scopes.compile = .ok x ∧ scopesShared.compile = .ok y ∧
        ∀ limit, y.run limit = x.run limit := by
  have accepted : scopes.check = .ok () := by decide
  have defined : weighted ∈ scopes.definitions := Program.memDefinitions.mpr (by simp [scopes])
  have takes : weighted.Takes ["x", "g"] := ⟨by decide, rfl, by decide⟩
  have same : scopes.renamed weighted.name ["x", "g"] = scopesShared := by with_unfolding_all rfl
  have agree := renamedParamsAgree accepted defined takes
  rw [same] at agree
  exact ⟨accepted, defined, takes, same, agree⟩

end CalcLang
