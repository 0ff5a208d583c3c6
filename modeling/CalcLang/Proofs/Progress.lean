import CalcLang.Proofs.Earliest
import CalcLang.Proofs.Walks
import Mathlib.Data.List.Chain

/-! Walks end. Every walk over a tape whose last token is an end follows its reader, and a reader
always comes to a result: the room for open expressions bounds how deep it goes, and the tokens that
are left how often it goes round a loop. So a walk never leaves the tape, is never deeper than
allowed, and behind what it has read it is further on. -/
namespace CalcLang

open Grammar

namespace Tape

section Readers

variable {tape : Tape} {last n : Nat} {ending : Token}

theorem moreElementsTracked {α : Type} {item : Walk α} {reader : Reader α}
    {loop : List α → Walk (List α)} (follows : Follows tape last ending n item reader)
    (turn : ∀ read, loop read = (do
      if ← tape.check .comma then
        tape.advance
        loop ((← item) :: read)
      else tape.close read.reverse))
    {outer : List Token} (read : List α) {w : Walker} {input : List Token}
    (ahead : Ahead tape last ending n w.place input) (short : input.length < outer.length) :
    Tracked tape w (Copies tape last ending n) (loop read w)
      (Reader.moreElements ending.span.start reader (⟨read, input, short⟩ : Parsed _ outer)) := by
  induction size : input.length using Nat.strongRecOn generalizing read w input with
  | ind size ih =>
    subst size
    rw [turn]
    refine checkTracked (by decide) ahead (fun span rest split => ?_) fun missing => ?_
    · subst split
      rw [Reader.moreElementsComma]
      refine advanceTracked ahead fun v behind => ?_
      refine trackedBind (follows v rest behind) fun u a p found => ?_
      obtain ⟨rfl, later⟩ := found
      have fewer : p.rest.length < (Token.mk .comma span :: rest).length := Nat.lt_succ_of_lt p.shorter
      exact ih _ fewer _ later _ rfl
    · rw [Reader.moreElementsClosing _ missing]
      exact closeTracked ahead _ fun closing => ⟨rfl, rfl⟩

section Expressions

variable {inner tighter : Reader Measured}

theorem primaryFollows (follows : Follows tape last ending n tape.nested inner) :
    Follows tape last ending n (tape.phrase .primary) (Reader.primary ending.span.start inner) := by
  intro w input ahead
  rw [phrase, bindDone (currentHere ahead)]
  cases input with
  | nil =>
    rw [List.headD_nil, ahead.ends]
    exact refuseTracked ahead .expression
  | cons t rest =>
    obtain ⟨kind, span⟩ := t
    cases kind with
    | number value => exact advanceTracked ahead fun v behind => .ok .none rfl ⟨rfl, behind⟩
    | identifier name => exact advanceTracked ahead fun v behind => .ok .none rfl ⟨rfl, behind⟩
    | leftParen =>
      refine advanceTracked ahead fun v behind => ?_
      refine trackedBind (follows v rest behind) fun u m e read => ?_
      exact closeTracked read.2 _ fun closing => ⟨read.1.symm, rfl⟩
    | _ => exact refuseTracked ahead .expression

def moreArguments (tape : Tape) (read : List Measured) : Walk (List Measured) := do
  if ← tape.check .comma then
    tape.advance
    tape.arguments read
  else tape.close read.reverse

theorem argumentsMore (read : List Measured) :
    tape.arguments read = (do tape.moreArguments ((← tape.nested) :: read)) := by
  rw [arguments]
  rfl

theorem argumentsTracked (follows : Follows tape last ending n tape.nested inner)
    {outer : List Token} (read : List Measured) {w : Walker} {input : List Token}
    (ahead : Ahead tape last ending n w.place input) (inside : input.length ≤ outer.length) :
    Tracked tape w (Copies tape last ending n) (tape.arguments read w)
      (Reader.elementsFrom ending.span.start inner read input inside :
        Except SyntaxError (Parsed _ outer)) := by
  rw [argumentsMore]
  refine trackedBind (follows w input ahead) fun v m e found => ?_
  obtain ⟨rfl, behind⟩ := found
  refine moreElementsTracked follows (fun read => ?_) _ behind _
  conv_lhs => unfold moreArguments
  simp only [argumentsMore]

theorem argumentListFollows (follows : Follows tape last ending n tape.nested inner) :
    Follows tape last ending n tape.argumentList (Reader.arguments ending.span.start inner) := by
  intro w input ahead
  rw [argumentList]
  refine checkTracked (by decide) ahead (fun span rest split => ?_) fun missing => ?_
  · subst split
    exact closeTracked ahead (fun closing => ⟨[], closing.rest, closing.shorter⟩) fun _ => ⟨rfl, rfl⟩
  · have opens : (kinds input).head? ≠ some .rightParen := by
      intro closes
      obtain ⟨tail, spelled⟩ := List.head?_eq_some_iff.mp closes
      obtain ⟨span, rest, split, -⟩ := kindsHead spelled
      exact missing span rest split
    rw [Reader.argumentsOpen opens]
    exact argumentsTracked follows [] ahead _

theorem callsTracked (follows : Follows tape last ending n tape.nested inner) {outer : List Token}
    (callee : Measured) {w : Walker} {input : List Token}
    (ahead : Ahead tape last ending n w.place input) (short : input.length < outer.length) :
    Tracked tape w (Copies tape last ending n) (tape.calls callee w)
      (Reader.calls ending.span.start inner (⟨callee, input, short⟩ : Parsed _ outer)) := by
  induction size : input.length using Nat.strongRecOn generalizing callee w input with
  | ind size ih =>
    subst size
    rw [calls]
    refine checkTracked (by decide) ahead (fun span rest split => ?_) fun missing => ?_
    · subst split
      rw [Reader.callsOpen, bindDone (currentHere ahead)]
      refine advanceTracked ahead fun v behind => ?_
      refine trackedBind (argumentListFollows follows v rest behind) fun u args p read => ?_
      obtain ⟨rfl, later⟩ := read
      refine trackedBind ofResultTracked fun x value same alike => ?_
      obtain ⟨rfl, rfl⟩ := alike
      have fewer : p.rest.length < (Token.mk .leftParen span :: rest).length :=
        Nat.lt_succ_of_lt p.shorter
      exact ih _ fewer _ later _ rfl
    · rw [Reader.callsDone missing]
      exact .ok .none rfl ⟨rfl, ahead⟩

theorem operationsTracked {l : Level} (tight : Follows tape last ending n (tape.phrase l.tighter) tighter)
    {outer : List Token} (left : Measured) {w : Walker} {input : List Token}
    (ahead : Ahead tape last ending n w.place input) (short : input.length < outer.length) :
    Tracked tape w (Copies tape last ending n) (tape.operations l left w)
      (Reader.operations (Reader.joins l) tighter (⟨left, input, short⟩ : Parsed _ outer)) := by
  induction size : input.length using Nat.strongRecOn generalizing left w input with
  | ind size ih =>
    subst size
    rw [operations, bindDone (currentHere ahead)]
    have stays (other : ∀ op span rest, input = ⟨.operator op, span⟩ :: rest → level op ≠ l) :
        Tracked tape w (Copies tape last ending n) ((pure left : Walk Measured) w)
          (Reader.operations (Reader.joins l) tighter (⟨left, input, short⟩ : Parsed _ outer)) := by
      rw [Reader.operationsDone other]
      exact .ok .none rfl ⟨rfl, ahead⟩
    cases input with
    | nil =>
      rw [List.headD_nil, ahead.ends]
      exact stays (by simp)
    | cons t rest =>
      obtain ⟨kind, span⟩ := t
      cases kind with
      | operator op =>
        by_cases joined : level op = l
        · rw [Reader.operationsJoin joined]
          simp only [List.headD_cons, joined, if_true]
          refine advanceTracked ahead fun v behind => ?_
          refine trackedBind (tight v rest behind) fun u right p read => ?_
          obtain ⟨rfl, later⟩ := read
          refine trackedBind ofResultTracked fun x value same alike => ?_
          obtain ⟨rfl, rfl⟩ := alike
          have fewer : p.rest.length < (Token.mk (.operator op) span :: rest).length :=
            Nat.lt_succ_of_lt p.shorter
          exact ih _ fewer _ later _ rfl
        · simp only [List.headD_cons, joined, if_false]
          refine stays ?_
          rintro _ _ _ ⟨⟩
          exact joined
      | _ => exact stays (by simp)

theorem loopFollows {l : Level} (primary : l ≠ .primary) (call : l ≠ .call)
    (tight : Follows tape last ending n (tape.phrase l.tighter) tighter) :
    Follows tape last ending n (tape.phrase l) (Reader.leftAssoc (Reader.joins l) tighter) := by
  intro w input ahead
  rw [phrase.eq_3 tape l primary call]
  refine trackedBind (tight w input ahead) fun v m p read => ?_
  obtain ⟨rfl, behind⟩ := read
  exact operationsTracked tight _ behind _

theorem operandFollows (follows : Follows tape last ending n tape.nested inner) :
    Follows tape last ending n (tape.phrase .call) (Reader.operand ending.span.start inner) := by
  intro w input ahead
  rw [phrase]
  refine trackedBind (primaryFollows follows w input ahead) fun v m p read => ?_
  obtain ⟨rfl, behind⟩ := read
  exact callsTracked follows _ behind _

theorem phraseFollows {room : Nat}
    (follows : Follows tape last ending n tape.nested (Reader.nested ending.span.start room))
    (l : Level) :
    Follows tape last ending n (tape.phrase l) (Reader.phrase ending.span.start room l) := by
  have call := operandFollows follows
  have power := loopFollows (l := .power) (by simp) (by simp) call
  have product := loopFollows (l := .product) (by simp) (by simp) power
  cases l with
  | primary => exact primaryFollows follows
  | call => exact call
  | power => exact power
  | product => exact product
  | sum => exact loopFollows (by simp) (by simp) product

theorem nestedDeep {w : Walker} (deep : nestingLimit ≤ w.place.nesting) :
    tape.nested w = tape.refuseDeep w := by
  rw [nested]
  change (if nestingLimit ≤ w.place.nesting then tape.refuseDeep.run else _) w = _
  rw [if_pos deep]
  rfl

theorem nestedRoom {w v : Walker} {result : Except SyntaxError Measured}
    (room : w.place.nesting < nestingLimit)
    (done : tape.phrase .sum (w.go ⟨w.place.pos, w.place.nesting + 1⟩) = some (result, v)) :
    tape.nested w = some (result, v.go ⟨v.place.pos, v.place.nesting - 1⟩) := by
  rw [nested]
  change (if nestingLimit ≤ w.place.nesting then tape.refuseDeep.run else _) w = _
  rw [if_neg (Nat.not_le.mpr room)]
  change (tape.phrase .sum (w.go ⟨w.place.pos, w.place.nesting + 1⟩)).bind _ = _
  rw [done]
  rfl

theorem nestedFollows {room : Nat} (count : n + room = nestingLimit) :
    Follows tape last ending n tape.nested (Reader.nested ending.span.start room) := by
  -- The room left bounds the mutual recursion; what it loses, `n` gains.
  induction room generalizing n with
  | zero =>
    intro w input ahead
    have deep : nestingLimit ≤ w.place.nesting := by
      rw [ahead.level]
      omega
    rw [nestedDeep deep]
    exact refuseDeepTracked ahead
  | succ room ih =>
    intro w input ahead
    have level := ahead.level
    have inside : Ahead tape last ending (n + 1) ⟨w.place.pos, w.place.nesting + 1⟩ input := by
      rw [level]
      exact ahead.nested (by omega)
    have below : w.place.nesting < nestingLimit := by omega
    have tracked := phraseFollows (ih (n := n + 1) (by omega)) .sum (w.go _) input inside
    rw [Reader.nestedPhrase]
    generalize outcome : tape.phrase .sum (w.go ⟨w.place.pos, w.place.nesting + 1⟩) = result at tracked
    generalize Reader.phrase ending.span.start room .sum input = expected at tracked ⊢
    cases tracked with
    | @ok m p v steps deeper read =>
      have back : v.place.nesting - 1 = w.place.nesting := Nat.sub_eq_of_eq_add deeper
      have outside : Ahead tape last ending n ⟨v.place.pos, v.place.nesting - 1⟩ p.rest := by
        rw [back, level]
        exact read.2.nested ahead.shallow
      rw [nestedRoom below outcome]
      exact .ok (.enclosed ahead.valid below steps deeper) back ⟨read.1, outside⟩
    | error steps deeper =>
      -- The walk inside gave up, and still comes back to the count it started with.
      rw [nestedRoom below outcome]
      exact .error (.enclosed ahead.valid below steps deeper) (Nat.sub_eq_of_eq_add deeper)

end Expressions

theorem parametersFollows :
    Follows tape last ending n tape.parameters (Reader.parameters ending.span.start) := by
  intro w input ahead
  unfold parameters
  rw [bindDone (currentHere ahead)]
  cases input with
  | nil =>
    rw [List.headD_nil, ahead.ends]
    exact closeTracked ahead (fun closing => ⟨[], closing.rest, closing.shorter⟩) fun _ => ⟨rfl, rfl⟩
  | cons t rest =>
    obtain ⟨kind, span⟩ := t
    cases kind with
    | identifier name =>
      have split : Reader.parameters ending.span.start (⟨.identifier name, span⟩ :: rest) =
          (Reader.identifier ending.span.start (⟨.identifier name, span⟩ :: rest) >>= fun p =>
            Reader.moreElements ending.span.start (Reader.identifier ending.span.start)
              ⟨[p.value], p.rest, p.shorter⟩) := rfl
      rw [split]
      refine trackedBind (identifierFollows w _ ahead) fun v first p read => ?_
      obtain ⟨rfl, behind⟩ := read
      exact moreElementsTracked identifierFollows (fun read => by rw [moreParameters]) _ behind _
    | _ =>
      exact closeTracked ahead (fun closing => ⟨[], closing.rest, closing.shorter⟩) fun _ => ⟨rfl, rfl⟩

section Statements

variable {value : Reader Expr}

theorem definitionTracked (follows : Follows tape last ending n tape.expression value) {w : Walker}
    {span : Span} {rest : List Token}
    (ahead : Ahead tape last ending n w.place (⟨.function, span⟩ :: rest)) :
    Tracked tape w (Copies tape last ending n) (tape.definition w)
      (Reader.definition ending.span.start value rest) := by
  refine advanceTracked ahead fun w behind => ?_
  refine trackedBind (identifierFollows w rest behind) fun w name p read => ?_
  obtain ⟨rfl, behind⟩ := read
  refine trackedBind (expectFollows (by decide) .leftParen w _ behind) fun w _ opening read => ?_
  refine trackedBind (parametersFollows w _ read.2) fun w params list read => ?_
  obtain ⟨rfl, behind⟩ := read
  refine trackedBind (expectFollows (by decide) .assign w _ behind) fun w _ equals read => ?_
  refine trackedBind (follows w _ read.2) fun w body tail read => ?_
  obtain ⟨rfl, behind⟩ := read
  exact .ok .none rfl ⟨rfl, behind⟩

theorem assignmentTracked (follows : Follows tape last ending n tape.expression value) {w : Walker}
    {name : String} {span place : Span} {rest : List Token}
    (ahead : Ahead tape last ending n w.place (⟨.identifier name, span⟩ :: ⟨.assign, place⟩ :: rest)) :
    Tracked tape w (Copies tape last ending n) (tape.assignment w)
      (Reader.statement ending.span.start value
        (⟨.identifier name, span⟩ :: ⟨.assign, place⟩ :: rest)) := by
  have named : tape.identifier w = some (.ok name, w.go ⟨w.place.pos + 1, w.place.nesting⟩) := by
    unfold identifier
    rw [bindDone (currentHere ahead)]
    exact bindDone (advanceHere ahead)
  have signed : tape.expect .assign .assign (w.go ⟨w.place.pos + 1, w.place.nesting⟩) =
      tape.advance (w.go ⟨w.place.pos + 1, w.place.nesting⟩) := by
    unfold expect
    rw [bindDone (checkHere (w := w.go _) ahead.behind .assign)]
    rfl
  unfold assignment
  rw [bindDone named, bindDone (signed.trans (advanceHere ahead.behind))]
  refine trackedBehind ((advanceSteps ahead).trans (advanceSteps ahead.behind)) rfl ?_
  refine trackedBind (follows _ rest ahead.behind.behind) fun v e p read => ?_
  obtain ⟨rfl, behind⟩ := read
  exact .ok .none rfl ⟨rfl, behind⟩

theorem evalTracked (follows : Follows tape last ending n tape.expression value) {w : Walker}
    {input : List Token} (ahead : Ahead tape last ending n w.place input) :
    Tracked tape w (Copies tape last ending n)
      ((do return .eval (← tape.expression) : Walk Statement) w)
      (value input >>= fun e => .ok ⟨.eval e.value, e.rest, e.shorter⟩) := by
  refine trackedBind (follows w input ahead) fun v e p read => ?_
  obtain ⟨rfl, behind⟩ := read
  exact .ok .none rfl ⟨rfl, behind⟩

theorem statementFollows (follows : Follows tape last ending n tape.expression value) :
    Follows tape last ending n tape.statement (Reader.statement ending.span.start value) := by
  intro w input ahead
  unfold statement
  rw [bindDone (currentHere ahead)]
  cases input with
  | nil =>
    rw [List.headD_nil, ahead.ends]
    exact evalTracked follows ahead
  | cons t rest =>
    obtain ⟨kind, span⟩ := t
    cases kind with
    | function => exact trackedCopy (definitionTracked follows ahead) _ fun _ _ _ read => read
    | identifier name =>
      change Tracked tape w _ ((tape.peek >>= fun next =>
        if next.any (·.kind = .assign) = true then tape.assignment else _) w) _
      rw [bindDone (peekHere ahead)]
      by_cases assigns : (rest.headD ending).kind = .assign
      · obtain ⟨place, more, rfl⟩ := (ahead.behind.headKind (by decide)).mp assigns
        rw [if_pos (by simp)]
        exact assignmentTracked follows ahead
      · rw [if_neg (by simpa using assigns)]
        have plain : Reader.statement ending.span.start value (⟨.identifier name, span⟩ :: rest) =
            (value (⟨.identifier name, span⟩ :: rest) >>= fun e =>
              .ok ⟨.eval e.value, e.rest, e.shorter⟩) := by
          cases rest with
          | nil => rfl
          | cons u more =>
            obtain ⟨kind, place⟩ := u
            cases kind with
            | assign => exact absurd rfl assigns
            | _ => rfl
        rw [plain]
        exact evalTracked follows ahead
    | _ => exact evalTracked follows ahead

theorem expressionFollows {room : Nat} (count : n + room = nestingLimit) :
    Follows tape last ending n tape.expression (Reader.expression ending.span.start room) := by
  intro w input ahead
  refine trackedBind (nestedFollows count w input ahead) fun v m p read => ?_
  obtain ⟨rfl, behind⟩ := read
  exact .ok .none rfl ⟨rfl, behind⟩

theorem skipTracked {α β : Type} {related : Walker → α → β → Prop} {k : Unit → Walk α}
    {expected : Except SyntaxError β} {w : Walker} {input : List Token}
    (ahead : Ahead tape last ending n w.place input)
    (skipped : ∀ v span rest, input = ⟨.newline, span⟩ :: rest → Ahead tape last ending n v.place rest →
      Tracked tape v related (k () v) expected)
    (kept : Tracked tape w related (k () w) expected) :
    Tracked tape w related ((tape.skipNewline >>= k) w) expected := by
  have outcome : tape.skipNewline w =
      (if decide ((input.headD ending).kind = .newline) = true then tape.advance else pure ()) w :=
    bindDone (checkHere ahead .newline)
  by_cases newline : (input.headD ending).kind = .newline
  · obtain ⟨span, rest, rfl⟩ := (ahead.headKind (by decide)).mp newline
    rw [if_pos (decide_eq_true newline), advanceHere ahead] at outcome
    rw [bindDone outcome]
    exact trackedBehind (advanceSteps ahead) rfl (skipped _ span rest rfl ahead.behind)
  · rw [if_neg (by simpa using newline)] at outcome
    rw [bindDone outcome]
    exact kept

theorem statementsTracked (read : List Statement) {w : Walker} {input : List Token}
    (ahead : Ahead tape last ending 0 w.place input) :
    Tracked tape w (fun _ => Eq) (tape.statements read w)
      (Reader.statements ending.span.start read input) := by
  induction size : input.length using Nat.strongRecOn generalizing read w input with
  | ind size ih =>
    subst size
    rw [statements, bindDone (checkHere ahead .endOfInput)]
    cases input with
    | nil =>
      rw [if_pos (by simpa using ahead.ends), Reader.statements]
      exact .ok .none rfl rfl
    | cons t rest =>
      rw [if_neg (by simpa using ahead.plain t List.mem_cons_self)]
      refine checkTracked (by decide) ahead (fun span more split => ?_) fun missing => ?_
      · obtain ⟨rfl, rfl⟩ := List.cons.inj split
        rw [Reader.statements]
        exact advanceTracked ahead fun v behind => ih _ (Nat.lt_succ_self _) _ behind rfl
      · have clause : t.kind ≠ .newline := fun same => missing t.span rest (by rw [← same])
        rw [Reader.statementsClause rfl clause]
        refine trackedBind (statementFollows (expressionFollows (Nat.zero_add _)) w _ ahead)
          fun v s p found => ?_
        obtain ⟨rfl, behind⟩ := found
        have fewer : p.rest.length < (t :: rest).length := p.shorter
        -- A line end behind the statement: the walk takes it at once, the reader with the next one.
        refine skipTracked behind (fun u span more split later => ?_) (ih _ fewer _ behind rfl)
        rw [split, Reader.statements]
        rw [split] at fewer
        exact ih _ (Nat.lt_of_succ_lt fewer) _ later rfl

end Statements

end Readers
end Tape

def Ended (tape : Tape) : Prop := ∃ t, tape.getLast? = some t ∧ t.kind = .endOfInput

theorem endedEnds (tokens : List Token) : Ended (ended tokens) := by
  unfold ended
  split
  case isTrue last =>
    obtain ⟨t, found, isEnd⟩ := (Option.any_eq_true _ _).mp last
    exact ⟨t, found, isEndIff.mp isEnd⟩
  case isFalse => exact ⟨_, List.getLast?_concat, rfl⟩

namespace Ended

variable {tape : Tape}

theorem same (isEnded : Ended tape) : ended tape = tape := by
  obtain ⟨t, last, kind⟩ := isEnded
  exact if_pos (by simpa [last] using isEndIff.mpr kind)

theorem drop (isEnded : Ended tape) {pos : Nat} (inside : pos < tape.length) :
    Ended (tape.drop pos) := by
  obtain ⟨t, last, kind⟩ := isEnded
  refine ⟨t, ?_, kind⟩
  rw [List.getLast?_drop, if_neg (Nat.not_le.mpr inside), last]

end Ended

theorem Ended.ahead {tape : Tape} (isEnded : Ended tape) {p : Place} (valid : p.Valid tape) :
    ∃ ending, ending.span.start = stopPosition (tape.drop p.pos) ∧
      Ahead tape (p.pos + (sentence (tape.drop p.pos)).length) ending p.nesting p
        (sentence (tape.drop p.pos)) := by
  obtain ⟨ending, later, split, kind, stop⟩ := endedSplit (tape.drop p.pos)
  rw [(isEnded.drop valid.inside).same] at split
  exact ⟨ending, stop, ⟨later, split⟩, sentencePlain _, kind, rfl, rfl, valid.shallow⟩

def Walker.path (w : Walker) : List Place := w.place :: w.earlier

structure Walker.Sound (tape : Tape) (w : Walker) : Prop where
  begun : w.path.getLast? = some Walker.start.place
  valid : ∀ p ∈ w.path, p.Valid tape
  steps : w.path.IsChain fun next p => p.Next tape next

theorem Walker.Steps.sound {tape : Tape} {v w : Walker} (steps : w.Steps tape v)
    (sound : w.Sound tape) : v.Sound tape := by
  induction steps with
  | none => exact sound
  | more _ step valid ih =>
    exact ⟨List.getLast?_cons_cons.trans ih.begun, List.forall_mem_cons.mpr ⟨valid, ih.valid⟩,
      List.isChain_cons_cons.mpr ⟨step, ih.steps⟩⟩

namespace Tape

/-- From every valid place the walk ends, with the result of the reader on the tokens up to the
next end; all its steps are valid, and it is then as deep as before. If it succeeds, it is further
on, behind what was read, and at most at that end. -/
def Steady (tape : Tape) {α : Type} (walk : Walk α) (reader : (stop room : Nat) → Reader α) :
    Prop :=
  ∀ w : Walker, w.place.Valid tape →
    let input := sentence (tape.drop w.place.pos)
    let expected := reader (stopPosition (tape.drop w.place.pos)) (nestingLimit - w.place.nesting) input
    ∃ after, walk w = some (expected.map Parsed.value, after) ∧ w.Steps tape after ∧
      after.place.nesting = w.place.nesting ∧
      ∀ p, expected = .ok p → after.place.pos + p.rest.length = w.place.pos + input.length ∧
        w.place.pos < after.place.pos ∧ after.place.pos ≤ w.place.pos + input.length

theorem steadyOf {tape : Tape} (isEnded : Ended tape) {α : Type} {walk : Walk α}
    {reader : (stop room : Nat) → Reader α}
    (follows : ∀ last ending n room, n + room = nestingLimit →
      Follows tape last ending n walk (reader ending.span.start room)) :
    Steady tape walk reader := by
  intro w valid input expected
  obtain ⟨ending, stop, ahead⟩ := isEnded.ahead valid
  have tracked := follows _ ending _ _ (Nat.add_sub_of_le valid.shallow) w _ ahead
  rw [stop] at tracked
  change Tracked tape w _ (walk w) expected at tracked
  generalize walk w = outcome at tracked ⊢
  generalize expected = result at tracked ⊢
  cases tracked with
  | @ok a p after steps level read =>
    obtain ⟨rfl, behind⟩ := read
    refine ⟨after, rfl, steps, level, ?_⟩
    rintro q same
    cases same
    have reach : after.place.pos + p.rest.length = w.place.pos + input.length := behind.reach
    have short := p.shorter
    exact ⟨reach, by omega, by omega⟩
  | @error e after steps level =>
    refine ⟨after, rfl, steps, level, ?_⟩
    rintro q same
    cases same

theorem programTracked (tokens : List Token) :
    Tracked (ended tokens) .start (fun _ => Eq) (Tape.program (ended tokens) .start)
      (Program.ofTokens tokens) := by
  obtain ⟨ending, later, split, kind, stop⟩ := endedSplit tokens
  have ahead : Ahead (ended tokens) (sentence tokens).length ending 0 Walker.start.place (sentence tokens) :=
    ⟨⟨later, split⟩, sentencePlain tokens, kind, Nat.zero_add _, rfl, Nat.zero_le _⟩
  unfold Program.ofTokens
  rw [← stop]
  refine trackedBind (statementsTracked [] ahead) fun v statements all same => ?_
  subst same
  exact .ok .none rfl rfl

end Tape

theorem startSound {tape : Tape} (isEnded : Ended tape) : Walker.start.Sound tape := by
  obtain ⟨t, last, _⟩ := isEnded
  have inside : 0 < tape.length := List.length_pos_of_mem (List.mem_of_getLast? last)
  refine ⟨rfl, ?_, .singleton _⟩
  rintro p mem
  cases List.mem_singleton.mp mem
  exact ⟨inside, Nat.zero_le _⟩

theorem walkProgresses (tokens : List Token) :
    let tape : Tape := ended tokens
    Ended tape ∧
      (∃ w, tape.program .start = some (Program.ofTokens tokens, w) ∧ w.Sound tape) ∧
      tape.Steady tape.statement
        (fun stop room => .statement stop (.expression stop room)) ∧
      tape.Steady tape.nested Reader.nested ∧
      ∀ l, tape.Steady (tape.phrase l) fun stop room => Reader.phrase stop room l := by
  intro tape
  have isEnded : Ended tape := endedEnds tokens
  refine ⟨isEnded, ?program, ?statement, ?nested, fun l => ?phrase⟩
  case program =>
    have tracked := Tape.programTracked tokens
    generalize Program.ofTokens tokens = result at tracked ⊢
    change Tracked tape .start (fun _ => Eq) (tape.program .start) result at tracked
    generalize tape.program .start = outcome at tracked ⊢
    cases tracked with
    | @ok a _ after steps _ same =>
      subst same
      exact ⟨after, rfl, steps.sound (startSound isEnded)⟩
    | @error e after steps => exact ⟨after, rfl, steps.sound (startSound isEnded)⟩
  case statement =>
    exact Tape.steadyOf isEnded fun _ _ _ _ count => Tape.statementFollows (Tape.expressionFollows count)
  case nested => exact Tape.steadyOf isEnded fun _ _ _ _ count => Tape.nestedFollows count
  case phrase =>
    exact Tape.steadyOf isEnded fun _ _ _ _ count => Tape.phraseFollows (Tape.nestedFollows count) l

end CalcLang
