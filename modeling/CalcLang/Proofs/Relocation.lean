import CalcLang.Proofs.Language

/-! Readers carry positions along and never look at them. When the tokens of an input and its
end are moved, what is read stays the same and an error moves with its token. -/
namespace CalcLang

def Span.moved (move : Nat → Nat) (s : Span) : Span := ⟨move s.start, move s.stop⟩

def Token.moved (move : Nat → Nat) (t : Token) : Token := ⟨t.kind, t.span.moved move⟩

def SyntaxError.moved (move : Nat → Nat) : SyntaxError → SyntaxError
  | unexpected expected found position => unexpected expected found (move position)
  | tooDeep limit position => tooDeep limit (move position)

/-- Two outcomes of which both succeed with related results, or the second error is the first
one moved. -/
inductive Relocated (move : Nat → Nat) {α β : Type} (related : α → β → Prop) :
    Except SyntaxError α → Except SyntaxError β → Prop
  | ok {a b} (same : related a b) : Relocated move related (.ok a) (.ok b)
  | error (e : SyntaxError) : Relocated move related (.error e) (.error (e.moved move))

structure Parsed.Moved (move : Nat → Nat) {α : Type} {input other : List Token}
    (r : Parsed α input) (s : Parsed α other) : Prop where
  value : s.value = r.value
  rest : s.rest = r.rest.map (Token.moved move)

theorem Parsed.Moved.copy {move : Nat → Nat} {α : Type} {input other : List Token}
    {r : Parsed α input} {s : Parsed α other} (same : r.Moved move s) :
    ∃ short, s = ⟨r.value, r.rest.map (Token.moved move), short⟩ := by
  obtain ⟨value, rest, short⟩ := s
  obtain ⟨values, tails⟩ := same
  dsimp only at values tails
  subst values tails
  exact ⟨short, rfl⟩

namespace Reader

variable {move : Nat → Nat}

theorem relocatedBind {α β γ δ : Type} {related : α → β → Prop} {results : γ → δ → Prop}
    {m : Except SyntaxError α} {n : Except SyntaxError β} {k : α → Except SyntaxError γ}
    {next : β → Except SyntaxError δ} (first : Relocated move related m n)
    (after : ∀ a b, related a b → Relocated move results (k a) (next b)) :
    Relocated move results (m >>= k) (n >>= next) := by
  cases first with
  | ok same => exact after _ _ same
  | error e => exact .error e

def Relocates (move : Nat → Nat) {α : Type} (first second : Reader α) : Prop :=
  ∀ input other, other = input.map (Token.moved move) →
    Relocated move (Parsed.Moved move) (first input) (second other)

theorem withinMoved (position : Nat) (m : Measured) :
    Relocated move Eq (within position m) (within (move position) m) := by
  unfold within
  split
  · exact .error (.tooDeep heightLimit position)
  · exact .ok rfl

theorem unexpectedMoved {α β : Type} {related : α → β → Prop} (stop : Nat) (expected : Expectation)
    (input : List Token) :
    Relocated move related (.error (unexpected stop expected input))
      (.error (unexpected (move stop) expected (input.map (Token.moved move)))) := by
  cases input with
  | nil => exact .error (.unexpected expected .endOfInput stop)
  | cons t rest => exact .error (.unexpected expected t.kind t.span.start)

theorem expectMoved (stop : Nat) (kind : TokenKind) (expected : Expectation) :
    Relocates move (expect stop kind expected) (expect (move stop) kind expected) := by
  rintro input _ rfl
  cases input with
  | nil => exact unexpectedMoved stop expected []
  | cons t rest =>
    change Relocated move _ (if t.kind = kind then _ else _) (if t.kind = kind then _ else _)
    split
    · exact .ok ⟨rfl, rfl⟩
    · exact unexpectedMoved stop expected (t :: rest)

theorem moreElementsMoved {α : Type} {stop : Nat} {element other : Reader α}
    (moved : Relocates move element other) {input target : List Token} (values : List α)
    (rest : List Token) (short : rest.length < input.length)
    (shorter : (rest.map (Token.moved move)).length < target.length) :
    Relocated move (Parsed.Moved move)
      (moreElements stop element (⟨values, rest, short⟩ : Parsed _ input))
      (moreElements (move stop) other
        (⟨values, rest.map (Token.moved move), shorter⟩ : Parsed _ target)) := by
  induction size : rest.length using Nat.strongRecOn generalizing values rest with
  | ind n ih =>
    cases rest with
    | nil =>
      rw [moreElements.eq_def, moreElements.eq_def]
      exact unexpectedMoved stop .rightParen []
    | cons t others =>
      obtain ⟨kind, span⟩ := t
      rw [moreElements.eq_def, moreElements.eq_def]
      cases kind with
      | comma =>
        refine relocatedBind (moved others _ rfl) fun e copy same => ?_
        obtain ⟨_, rfl⟩ := same.copy
        have fewer : e.rest.length < n := size ▸ Nat.lt_succ_of_lt e.shorter
        exact ih _ fewer _ _ _ _ rfl
      | rightParen => exact .ok ⟨rfl, rfl⟩
      | _ => exact unexpectedMoved stop .rightParen (_ :: others)

section Expressions

variable {stop : Nat} {inner other : Reader Measured}

theorem primaryMoved (moved : Relocates move inner other) :
    Relocates move (primary stop inner) (primary (move stop) other) := by
  rintro input _ rfl
  cases input with
  | nil => exact unexpectedMoved stop .expression []
  | cons t rest =>
    obtain ⟨kind, span⟩ := t
    cases kind with
    | number value => exact .ok ⟨rfl, rfl⟩
    | identifier name => exact .ok ⟨rfl, rfl⟩
    | leftParen =>
      refine relocatedBind (moved rest _ rfl) fun e f same => ?_
      refine relocatedBind (expectMoved stop .rightParen .rightParen _ _ same.rest) ?_
      exact fun closing paren behind => .ok ⟨same.value, behind.rest⟩
    | _ => exact unexpectedMoved stop .expression (_ :: rest)

theorem kindsMoved (tokens : List Token) : kinds (tokens.map (Token.moved move)) = kinds tokens := by
  rw [kinds, List.map_map]
  rfl

theorem argumentsMoved (moved : Relocates move inner other) :
    Relocates move (arguments stop inner) (arguments (move stop) other) := by
  rintro input _ rfl
  by_cases empty : (kinds input).head? = some .rightParen
  · cases input with
    | nil => cases empty
    | cons t rest =>
      obtain ⟨kind, span⟩ := t
      obtain rfl : kind = .rightParen := Option.some.inj empty
      exact .ok ⟨rfl, rfl⟩
  · rw [argumentsOpen empty, argumentsOpen (by rwa [kindsMoved])]
    refine relocatedBind (moved input _ rfl) fun e f same => ?_
    obtain ⟨_, rfl⟩ := same.copy
    exact moreElementsMoved moved _ _ _ _

theorem callsMoved (moved : Relocates move inner other) {input target : List Token} (value : Measured)
    (rest : List Token) (short : rest.length < input.length)
    (shorter : (rest.map (Token.moved move)).length < target.length) :
    Relocated move (Parsed.Moved move) (calls stop inner (⟨value, rest, short⟩ : Parsed _ input))
      (calls (move stop) other (⟨value, rest.map (Token.moved move), shorter⟩ : Parsed _ target)) := by
  induction size : rest.length using Nat.strongRecOn generalizing value rest with
  | ind n ih =>
    cases rest with
    | nil =>
      rw [calls.eq_def, calls.eq_def]
      exact .ok ⟨rfl, rfl⟩
    | cons t others =>
      obtain ⟨kind, span⟩ := t
      cases kind with
      | leftParen =>
        simp only [List.map_cons, Token.moved]
        rw [callsOpen, callsOpen]
        refine relocatedBind (argumentsMoved moved others _ rfl) fun args copies same => ?_
        obtain ⟨_, rfl⟩ := same.copy
        refine relocatedBind (withinMoved span.start (value.call args.value)) fun call _ same => ?_
        subst same
        have fewer : args.rest.length < n := size ▸ Nat.lt_succ_of_lt args.shorter
        exact ih _ fewer _ _ _ _ rfl
      | _ =>
        rw [calls.eq_def, calls.eq_def]
        exact .ok ⟨rfl, rfl⟩

theorem operandMoved (moved : Relocates move inner other) :
    Relocates move (operand stop inner) (operand (move stop) other) := by
  intro input target same
  refine relocatedBind (primaryMoved moved input target same) fun first copy same => ?_
  obtain ⟨_, rfl⟩ := same.copy
  exact callsMoved moved _ _ _ _

theorem operationsMoved (level : Operator → Bool) (moved : Relocates move inner other)
    {input target : List Token} (value : Measured) (rest : List Token)
    (short : rest.length < input.length)
    (shorter : (rest.map (Token.moved move)).length < target.length) :
    Relocated move (Parsed.Moved move) (operations level inner (⟨value, rest, short⟩ : Parsed _ input))
      (operations level other (⟨value, rest.map (Token.moved move), shorter⟩ : Parsed _ target)) := by
  induction size : rest.length using Nat.strongRecOn generalizing value rest with
  | ind n ih =>
    cases rest with
    | nil =>
      rw [operations.eq_def, operations.eq_def]
      exact .ok ⟨rfl, rfl⟩
    | cons t others =>
      obtain ⟨kind, span⟩ := t
      cases kind with
      | operator op =>
        simp only [List.map_cons, Token.moved]
        rw [operations.eq_def, operations.eq_def]
        by_cases joined : level op = true
        · simp only [joined, if_true]
          refine relocatedBind (moved others _ rfl) fun right copy same => ?_
          obtain ⟨_, rfl⟩ := same.copy
          refine relocatedBind (withinMoved span.start (value.binary op right.value)) fun tree _ same => ?_
          subst same
          have fewer : right.rest.length < n := size ▸ Nat.lt_succ_of_lt right.shorter
          exact ih _ fewer _ _ _ _ rfl
        · simp only [joined]
          exact .ok ⟨rfl, rfl⟩
      | _ =>
        rw [operations.eq_def, operations.eq_def]
        exact .ok ⟨rfl, rfl⟩

theorem leftAssocMoved (level : Operator → Bool) (moved : Relocates move inner other) :
    Relocates move (leftAssoc level inner) (leftAssoc level other) := by
  intro input target same
  refine relocatedBind (moved input target same) fun first copy same => ?_
  obtain ⟨_, rfl⟩ := same.copy
  exact operationsMoved level moved _ _ _ _

theorem nestedMoved (stop room : Nat) : Relocates move (nested stop room) (nested (move stop) room) := by
  induction room with
  | zero =>
    rintro input _ rfl
    cases input with
    | nil => exact .error (.tooDeep nestingLimit stop)
    | cons t rest => exact .error (.tooDeep nestingLimit t.span.start)
  | succ room ih =>
    exact leftAssocMoved _ (leftAssocMoved _ (leftAssocMoved _ (operandMoved ih)))

end Expressions

theorem expressionMoved (stop room : Nat) :
    Relocates move (expression stop room) (expression (move stop) room) := by
  intro input target same
  refine relocatedBind (nestedMoved stop room input target same) fun e f same => ?_
  exact .ok ⟨congrArg Measured.expr same.value, same.rest⟩

theorem identifierMoved (stop : Nat) : Relocates move (identifier stop) (identifier (move stop)) := by
  rintro input _ rfl
  cases input with
  | nil => exact unexpectedMoved stop .identifier []
  | cons t rest =>
    obtain ⟨kind, span⟩ := t
    cases kind with
    | identifier name => exact .ok ⟨rfl, rfl⟩
    | _ => exact unexpectedMoved stop .identifier (_ :: rest)

theorem parametersMoved (stop : Nat) : Relocates move (parameters stop) (parameters (move stop)) := by
  rintro input _ rfl
  cases input with
  | nil => exact unexpectedMoved stop .rightParen []
  | cons t rest =>
    obtain ⟨kind, span⟩ := t
    cases kind with
    | identifier name => exact moreElementsMoved (identifierMoved stop) [name] rest _ _
    | rightParen => exact .ok ⟨rfl, rfl⟩
    | _ => exact unexpectedMoved stop .rightParen (_ :: rest)

section Statements

variable {value other : Reader Expr} (moved : Relocates move value other)

include moved

theorem definitionMoved (stop : Nat) :
    Relocates move (definition stop value) (definition (move stop) other) := by
  intro input target same
  refine relocatedBind (identifierMoved stop input target same) fun name _ first => ?_
  refine relocatedBind (expectMoved stop .leftParen .leftParen _ _ first.rest) fun _ _ opening => ?_
  refine relocatedBind (parametersMoved stop _ _ opening.rest) fun params _ list => ?_
  refine relocatedBind (expectMoved stop .assign .assign _ _ list.rest) fun _ _ sign => ?_
  refine relocatedBind (moved _ _ sign.rest) fun body _ tail => ?_
  exact .ok ⟨by rw [first.value, list.value, tail.value], tail.rest⟩

theorem evaluationMoved :
    Relocates move
      (fun input => value input >>= fun e => .ok ⟨.eval e.value, e.rest, e.shorter⟩ : Reader Statement)
      (fun input => other input >>= fun e => .ok ⟨.eval e.value, e.rest, e.shorter⟩) := by
  intro input target same
  refine relocatedBind (moved input target same) fun e f same => ?_
  exact .ok ⟨congrArg Statement.eval same.value, same.rest⟩

theorem statementMoved (stop : Nat) :
    Relocates move (statement stop value) (statement (move stop) other) := by
  rintro input _ rfl
  cases input with
  | nil => exact evaluationMoved moved _ _ rfl
  | cons t rest =>
    obtain ⟨kind, span⟩ := t
    cases kind with
    | function =>
      refine relocatedBind (definitionMoved moved stop rest _ rfl) fun s copy same => ?_
      exact .ok ⟨same.value, same.rest⟩
    | identifier name =>
      cases rest with
      | nil => exact evaluationMoved moved _ _ rfl
      | cons u rest =>
        obtain ⟨kind, place⟩ := u
        cases kind with
        | assign =>
          refine relocatedBind (moved rest _ rfl) fun e f same => ?_
          exact .ok ⟨congrArg (Statement.assign name) same.value, same.rest⟩
        | _ => exact evaluationMoved moved _ _ rfl
    | _ => exact evaluationMoved moved _ _ rfl

end Statements

theorem statementsMoved (stop : Nat) (read : List Statement) (input : List Token) :
    Relocated move Eq (statements stop read input)
      (statements (move stop) read (input.map (Token.moved move))) := by
  fun_induction statements stop read input with
  | case1 read =>
    rw [List.map_nil, statements]
    exact .ok rfl
  | case2 read span rest ih =>
    rw [List.map_cons, Token.moved, statements]
    exact ih
  | case3 read t rest other ih =>
    have notBlank : t.kind ≠ .newline := fun same => other t.span (by rw [← same])
    have head : (kinds ((t :: rest).map (Token.moved move))).head? = some t.kind := rfl
    rw [statementsClause head notBlank]
    refine relocatedBind (statementMoved (expressionMoved stop nestingLimit) stop (t :: rest) _ rfl)
      fun s copy same => ?_
    obtain ⟨_, rfl⟩ := same.copy
    exact ih s

end Reader
end CalcLang
