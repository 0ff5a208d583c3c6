import CalcLang.Proofs.Lines
import CalcLang.Proofs.Offences

/-! Streams under any order of requests. A stream is asked for its next result, which ends with the
first end token or error, or for one more token, which never ends. Both move the same cursor, so
what they hand out is one sequence: the tokens and then the end token again and again, the same
unexpected character again and again, or, behind a number that is too large, whatever follows it. -/
namespace CalcLang

namespace Cursor

inductive Yields : Cursor → Except LexError Token → Cursor → Prop
  | ended {offset gap} (blank : ∀ c ∈ gap, Blank c) :
      Yields ⟨gap, offset⟩ (.ok ⟨.endOfInput, ⟨offset + gap.length, offset + gap.length⟩⟩)
        ⟨[], offset + gap.length⟩
  | token {offset gap text after kind} (blank : ∀ c ∈ gap, Blank c) (lexeme : Lexeme text after kind) :
      Yields ⟨gap ++ (text ++ after), offset⟩
        (.ok ⟨kind, ⟨offset + gap.length, offset + gap.length + text.length⟩⟩)
        ⟨after, offset + gap.length + text.length⟩
  | character {offset gap c rest} (blank : ∀ c ∈ gap, Blank c) (other : ¬ Blank c) (part : ¬ WordPart c)
      (unlisted : ∀ kind, (c, kind) ∉ symbols) :
      Yields ⟨gap ++ c :: rest, offset⟩ (.error (.unexpectedCharacter c (offset + gap.length)))
        ⟨c :: rest, offset + gap.length⟩
  | number {offset gap digits after} (blank : ∀ c ∈ gap, Blank c) (all : IsDigits digits)
      (stop : Stops Digit after) (noFraction : NoFraction after)
      (large : Int64.maxValue.toInt < digitsValue digits) :
      Yields ⟨gap ++ (digits ++ after), offset⟩
        (.error (.invalidNumber (String.ofList digits) (offset + gap.length)))
        ⟨after, offset + gap.length + digits.length⟩

variable {c after : Cursor} {result : Except LexError Token}

theorem nextOfYields (yields : c.Yields result after) : c.next = (result, after) := by
  cases yields with
  | ended blank => exact nextEnd blank
  | token blank lexeme => exact nextSeparated blank lexeme
  | @character offset gap c rest blank other part unlisted =>
    have none : TokenKind.ofSymbol? c = none := Option.eq_none_iff_forall_ne_some.mpr fun kind found =>
      unlisted kind (ofSymbolIff.mp found)
    rw [nextGap blank (stopsCons other rest), nextOther other part, none]
  | @number offset gap digits after blank all stop noFraction large =>
    have offence : Offence (offset + gap.length) (digits ++ after) _ := .number all stop noFraction large
    have read := largeRead (offset + gap.length) all large stop noFraction
    rw [nextGap blank offence.stops]
    obtain ⟨first, more, rfl, digit⟩ := all.head
    exact (nextDigit digit).trans read

theorem yieldsSomehow (c : Cursor) : ∃ result after, c.Yields result after := by
  obtain ⟨text, offset⟩ := c
  obtain ⟨gap, rest, rfl, blank, stop⟩ := splitRun Blank text
  cases rest with
  | nil =>
    rw [List.append_nil]
    exact ⟨_, _, .ended blank⟩
  | cons first more =>
    have begins := beginsSomehow (stop first rfl) more (offset + gap.length)
    generalize first :: more = rest at begins
    rcases begins with ⟨text, after, kind, rfl, lexeme⟩ | ⟨e, offence⟩
    · exact ⟨_, _, .token blank lexeme⟩
    · cases offence with
      | character other part unlisted => exact ⟨_, _, .character blank other part unlisted⟩
      | number all stop noFraction large => exact ⟨_, _, .number blank all stop noFraction large⟩

theorem nextYields (c : Cursor) : c.Yields c.next.1 c.next.2 := by
  obtain ⟨result, after, yields⟩ := c.yieldsSomehow
  rw [nextOfYields yields]
  exact yields

def results (c : Cursor) : Nat → List (Except LexError Token)
  | 0 => []
  | n + 1 => c.next.1 :: c.next.2.results n

theorem resultsStuck (again : c.next = (result, c)) (n : Nat) : c.results n = List.replicate n result := by
  induction n with
  | zero => rfl
  | succ n ih => rw [results, again, ih, List.replicate_succ]

theorem characterAgain {character : Char} {position : Nat}
    (yields : c.Yields (.error (.unexpectedCharacter character position)) after) :
    after.next = (.error (.unexpectedCharacter character position), after) := by
  cases yields with
  | @character offset gap _ rest blank other part unlisted =>
    exact nextOfYields (.character (List.forall_mem_nil _) other part unlisted)

end Cursor

/-! What a cursor yields does not depend on where its text stands. -/

def movedResult (distance : Nat) : Except LexError Token → Except LexError Token
  | .ok t => .ok (t.moved (· + distance))
  | .error e => .error (e.moved (· + distance))

namespace Cursor

variable {c after : Cursor} {result : Except LexError Token}

def moved (distance : Nat) (c : Cursor) : Cursor := ⟨c.rest, c.offset + distance⟩

theorem Yields.moved (yields : c.Yields result after) (distance : Nat) :
    (c.moved distance).Yields (movedResult distance result) (after.moved distance) := by
  have shift (offset first : Nat) : offset + distance + first = offset + first + distance :=
    Nat.add_right_comm offset distance first
  cases yields with
  | @ended offset gap blank =>
    have there : Yields ⟨gap, offset + distance⟩ _ _ := .ended blank
    rwa [shift] at there
  | @token offset gap text after kind blank lexeme =>
    have there : Yields ⟨gap ++ (text ++ after), offset + distance⟩ _ _ := .token blank lexeme
    rwa [shift, shift] at there
  | @character offset gap c rest blank other part unlisted =>
    have there : Yields ⟨gap ++ c :: rest, offset + distance⟩ _ _ := .character blank other part unlisted
    rwa [shift] at there
  | @number offset gap digits after blank all stop noFraction large =>
    have there : Yields ⟨gap ++ (digits ++ after), offset + distance⟩ _ _ :=
      .number blank all stop noFraction large
    rwa [shift, shift] at there

theorem resultsMoved (c : Cursor) (distance n : Nat) :
    (c.moved distance).results n = (c.results n).map (movedResult distance) := by
  induction n generalizing c with
  | zero => rfl
  | succ n ih =>
    rw [results, results, nextOfYields (c.nextYields.moved distance), List.map_cons, ← ih]

/-- The cursor stands behind an ASCII part of the source, so its offset counts bytes. -/
def Inside (source : String) (c : Cursor) : Prop :=
  ∃ before, source.toList = before ++ c.rest ∧ c.offset = before.length ∧ ∀ d ∈ before, d.utf8Size = 1

theorem insideStart (source : String) : Inside source (ofSource source) :=
  ⟨[], rfl, rfl, List.forall_mem_nil _⟩

theorem insideBehind {source : String} {gap text rest : List Char} {offset : Nat}
    (inside : Inside source ⟨gap ++ (text ++ rest), offset⟩) (blank : ∀ d ∈ gap, Blank d)
    (ascii : ∀ d ∈ text, d.utf8Size = 1) :
    Inside source ⟨rest, offset + gap.length + text.length⟩ := by
  obtain ⟨before, split, place, all⟩ := inside
  dsimp only at split place
  refine ⟨before ++ (gap ++ text), by simp only [split, List.append_assoc], ?_, ?_⟩
  · simp only [place, List.length_append, Nat.add_assoc]
  · intro d mem
    simp only [List.mem_append] at mem
    rcases mem with mem | mem | mem
    · exact all d mem
    · exact blankAscii (blank d mem)
    · exact ascii d mem

theorem insideNext {source : String} (inside : Inside source c) : Inside source c.next.2 := by
  have yields := c.nextYields
  generalize c.next.1 = result, c.next.2 = after at yields
  cases yields with
  | @ended offset gap blank =>
    have whole : Inside source ⟨gap ++ ([] ++ []), offset⟩ := by simpa using inside
    exact insideBehind whole blank (List.forall_mem_nil _)
  | token blank lexeme => exact insideBehind inside blank lexeme.ascii
  | @character offset gap d rest blank other part unlisted =>
    have whole : Inside source ⟨gap ++ ([] ++ d :: rest), offset⟩ := inside
    exact insideBehind whole blank (List.forall_mem_nil _)
  | number blank all stop noFraction large =>
    exact insideBehind inside blank fun d mem => wordPartAscii (.inr (all.2 d mem))

theorem numberBehind {source literal : String} {position : Nat} (inside : Inside source c)
    (yields : c.Yields (.error (.invalidNumber literal position)) after) :
    ∃ before rest, source = before ++ literal ++ rest ∧ position = before.utf8ByteSize ∧
      after = (ofSource rest).moved (before ++ literal).utf8ByteSize := by
  obtain ⟨before, split, place, ascii⟩ := inside
  cases yields with
  | @number offset gap digits behind blank all stop noFraction large =>
    dsimp only at split place
    have front : ∀ d ∈ before ++ gap, d.utf8Size = 1 := List.forall_mem_append.mpr
      ⟨ascii, fun d mem => blankAscii (blank d mem)⟩
    have word : ∀ d ∈ digits, d.utf8Size = 1 := fun d mem => wordPartAscii (.inr (all.2 d mem))
    refine ⟨String.ofList (before ++ gap), String.ofList behind, ?_, ?_, ?_⟩
    · rw [← String.ofList_append, ← String.ofList_append, List.append_assoc, List.append_assoc, ← split,
        String.ofList_toList]
    · rw [asciiSize front, List.length_append, place]
    · rw [String.utf8ByteSize_append, asciiSize front, asciiSize word, List.length_append, place]
      simp [Cursor.moved, ofSource]

/-! The results of a whole source, up to its end or to its first error. -/

theorem resultsEnd {offset n : Nat} {gap : List Char} (blank : ∀ c ∈ gap, Blank c) :
    (mk gap offset).results n =
      List.replicate n (.ok ⟨.endOfInput, ⟨offset + gap.length, offset + gap.length⟩⟩) := by
  cases n with
  | zero => rfl
  | succ n =>
    have again : (mk [] (offset + gap.length)).next = _ := nextEnd (List.forall_mem_nil Blank)
    rw [results, nextEnd blank, resultsStuck again, List.replicate_succ]
    rfl

theorem resultsScan {offset : Nat} {text : List Char} {tokens : List Token}
    (scan : Scan offset text tokens) :
    ∃ body stop, tokens = body ++ [stop] ∧ stop.kind = .endOfInput ∧ ∀ n m, n ≤ m →
      (mk text offset).results n <+: body.map .ok ++ List.replicate m (.ok stop) := by
  induction scan with
  | @last offset gap blank =>
    refine ⟨[], _, rfl, rfl, fun n m bound => ?_⟩
    rw [resultsEnd blank]
    exact List.prefix_replicate_iff.mpr ⟨by simpa using bound, by simp⟩
  | @next offset gap text after kind tokens blank lexeme later ih =>
    obtain ⟨body, stop, rfl, last, ahead⟩ := ih
    refine ⟨_ :: body, stop, rfl, last, fun n m bound => ?_⟩
    cases n with
    | zero => exact List.nil_prefix
    | succ n =>
      rw [results, nextSeparated blank lexeme, List.map_cons, List.cons_append, List.prefix_cons_inj]
      exact ahead n m (Nat.le_of_succ_le bound)

theorem resultsBroken {offset : Nat} {text : List Char} {e : LexError} (broken : Broken offset text e) :
    ∃ before rest body stop, text = before ++ rest ∧ Offence (offset + before.length) rest e ∧
      Scan offset before (body ++ [stop]) ∧
      ∀ n, ((mk text offset).results n).take (body.length + 1) <+: body.map .ok ++ [.error e] := by
  induction broken with
  | @here offset gap rest e blank offence =>
    refine ⟨gap, rest, [], _, rfl, offence, .last blank, fun n => ?_⟩
    cases n with
    | zero => exact List.nil_prefix
    | succ n =>
      rw [results, nextGap blank offence.stops, nextOffence offence]
      exact List.prefix_refl _
  | @later offset gap text after kind e blank lexeme inner ih =>
    obtain ⟨before, rest, body, stop, rfl, offence, scan, ahead⟩ := ih
    refine ⟨gap ++ (text ++ before), rest, _ :: body, stop, by simp only [List.append_assoc], ?_,
      .next blank lexeme.cutBehind scan, fun n => ?_⟩
    · simpa only [List.length_append, Nat.add_assoc] using offence
    · cases n with
      | zero => exact List.nil_prefix
      | succ n =>
        rw [results, nextSeparated blank lexeme, List.length_cons, List.take_succ_cons, List.map_cons,
          List.cons_append, List.prefix_cons_inj]
        exact ahead n

end Cursor

/-! Requests and the answers of a stream. -/

inductive Request where
  | next
  | read

namespace TokenStream

def answer (s : TokenStream) : Request → Option (Except LexError Token) × TokenStream
  | .next => s.next
  | .read => (some s.read.1, s.read.2)

def answers (s : TokenStream) : List Request → List (Option (Except LexError Token))
  | [] => []
  | request :: rest => (s.answer request).1 :: (s.answer request).2.answers rest

def given (answers : List (Option (Except LexError Token))) : List (Except LexError Token) :=
  answers.filterMap id

theorem answerNext (s : TokenStream) :
    s.answer .next = if s.finished = true then (none, s)
      else (some s.cursor.next.1, ⟨s.cursor.next.2, isLast s.cursor.next.1⟩) := rfl

theorem answerRead (s : TokenStream) :
    s.answer .read = (some s.cursor.next.1, ⟨s.cursor.next.2, s.finished⟩) := rfl

theorem answerCases (s : TokenStream) (request : Request) :
    s.answer request = (none, s) ∨
      ∃ finished, s.answer request = (some s.cursor.next.1, ⟨s.cursor.next.2, finished⟩) := by
  cases request with
  | next =>
    rw [answerNext]
    split
    · exact .inl rfl
    · exact .inr ⟨_, rfl⟩
  | read => exact .inr ⟨_, s.answerRead⟩

theorem answersLength (s : TokenStream) (requests : List Request) :
    (s.answers requests).length = requests.length := by
  induction requests generalizing s with
  | nil => rfl
  | cons request rest ih => rw [answers, List.length_cons, List.length_cons, ih]

theorem givenResults (s : TokenStream) (requests : List Request) :
    ∃ n ≤ requests.length, given (s.answers requests) = s.cursor.results n := by
  induction requests generalizing s with
  | nil => exact ⟨0, Nat.le_refl 0, rfl⟩
  | cons request rest ih =>
    rcases s.answerCases request with silent | ⟨finished, spoken⟩
    · obtain ⟨n, bound, same⟩ := ih s
      refine ⟨n, Nat.le_succ_of_le bound, ?_⟩
      rw [answers, silent]
      exact same
    · obtain ⟨n, bound, same⟩ := ih ⟨s.cursor.next.2, finished⟩
      refine ⟨n + 1, Nat.succ_le_succ bound, ?_⟩
      rw [answers, spoken, Cursor.results, ← same]
      rfl

theorem givenReads (s : TokenStream) (n : Nat) :
    given (s.answers (List.replicate n .read)) = s.cursor.results n := by
  induction n generalizing s with
  | zero => rfl
  | succ n ih =>
    rw [List.replicate_succ, answers, answerRead, Cursor.results]
    exact congrArg (List.cons _) (ih ⟨s.cursor.next.2, s.finished⟩)

theorem silentStep (s : TokenStream) (request : Request) :
    (s.answer request).1 = none ↔ request = .next ∧ s.finished = true := by
  cases request with
  | next =>
    rw [answerNext]
    split <;> simp [*]
  | read => simp [answerRead]

theorem finishedStep (s : TokenStream) (request : Request) :
    (s.answer request).2.finished = true ↔ s.finished = true ∨ request = .next ∧
      ∃ result, (s.answer request).1 = some result ∧ isLast result = true := by
  cases request with
  | next =>
    rw [answerNext]
    split <;> simp [*]
  | read => simp [answerRead]

theorem silentIff (s : TokenStream) (requests : List Request) (i : Nat) :
    (s.answers requests)[i]? = some none ↔ requests[i]? = some .next ∧
      (s.finished = true ∨ ∃ j < i, requests[j]? = some .next ∧
        ∃ result, (s.answers requests)[j]? = some (some result) ∧ isLast result = true) := by
  induction requests generalizing s i with
  | nil => simp [answers]
  | cons request rest ih =>
    cases i with
    | zero => simp [answers, silentStep]
    | succ i =>
      simp only [answers, List.getElem?_cons_succ, ih, finishedStep, Nat.exists_lt_succ_left,
        List.getElem?_cons_zero, Option.some.injEq, or_assoc]

theorem givenAt {s : TokenStream} {requests : List Request} {i : Nat} {result : Except LexError Token}
    (property : Cursor → Prop) (start : property s.cursor) (keep : ∀ c, property c → property c.next.2)
    (here : (s.answers requests)[i]? = some (some result)) :
    ∃ c after finished, property c ∧ c.Yields result after ∧
      (s.answers requests).drop (i + 1) = (mk after finished).answers (requests.drop (i + 1)) := by
  induction requests generalizing s i with
  | nil => simp [answers] at here
  | cons request rest ih =>
    cases i with
    | zero =>
      rcases s.answerCases request with silent | ⟨finished, spoken⟩
      · simp [answers, silent] at here
      · simp only [answers, spoken, List.getElem?_cons_zero, Option.some.injEq] at here
        subst here
        refine ⟨s.cursor, s.cursor.next.2, finished, start, s.cursor.nextYields, ?_⟩
        simp [answers, spoken]
    | succ i =>
      have kept : property (s.answer request).2.cursor := by
        rcases s.answerCases request with silent | ⟨finished, spoken⟩
        · rw [silent]
          exact start
        · rw [spoken]
          exact keep s.cursor start
      exact ih kept here

end TokenStream

open TokenStream (given isLast)

structure Answered (source : String) (requests : List Request)
    (answers : List (Option (Except LexError Token))) : Prop where
  each : answers.length = requests.length
  silent : ∀ i : Nat, answers[i]? = some none ↔ requests[i]? = some .next ∧
    ∃ j < i, requests[j]? = some .next ∧ ∃ result, answers[j]? = some (some result) ∧ isLast result = true
  tokens : ∀ tokens, tokenize source = .ok tokens → ∃ body stop, tokens = body ++ [stop] ∧
    stop.kind = .endOfInput ∧ given answers <+: body.map .ok ++ List.replicate answers.length (.ok stop)
  error : ∀ e, tokenize source = .error e → ∃ before rest body stop, source = before ++ rest ∧
    Offence before.utf8ByteSize rest.toList e ∧ tokenize before = .ok (body ++ [stop]) ∧
    (given answers).take (body.length + 1) <+: body.map .ok ++ [.error e]
  stuck : ∀ (i j : Nat) c position result, i < j →
    answers[i]? = some (some (.error (.unexpectedCharacter c position))) →
    answers[j]? = some (some result) → result = .error (.unexpectedCharacter c position)
  resumed : ∀ (i : Nat) literal position, answers[i]? = some (some (.error (.invalidNumber literal position))) →
    ∃ before rest n, source = before ++ literal ++ rest ∧ position = before.utf8ByteSize ∧
      given (answers.drop (i + 1)) =
        (given ((TokenStream.ofSource rest).answers (List.replicate n .read))).map
          (movedResult (before ++ literal).utf8ByteSize)

section Answers

variable {source : String} {requests : List Request}

theorem givenTokens {tokens : List Token} (read : tokenize source = .ok tokens) :
    ∃ body stop, tokens = body ++ [stop] ∧ stop.kind = .endOfInput ∧
      given ((TokenStream.ofSource source).answers requests) <+:
        body.map .ok ++ List.replicate requests.length (.ok stop) := by
  obtain ⟨body, stop, same, last, ahead⟩ := Cursor.resultsScan (tokenizeOkIff.mp read)
  obtain ⟨n, bound, shared⟩ := (TokenStream.ofSource source).givenResults requests
  refine ⟨body, stop, same, last, ?_⟩
  rw [shared]
  exact ahead n requests.length bound

theorem givenError {e : LexError} (failed : tokenize source = .error e) :
    ∃ before rest body stop, source = before ++ rest ∧ Offence before.utf8ByteSize rest.toList e ∧
      tokenize before = .ok (body ++ [stop]) ∧
      (given ((TokenStream.ofSource source).answers requests)).take (body.length + 1) <+:
        body.map .ok ++ [.error e] := by
  obtain ⟨before, rest, body, stop, split, offence, scan, ahead⟩ :=
    Cursor.resultsBroken (tokenizeErrorIff.mp failed)
  obtain ⟨n, _, shared⟩ := (TokenStream.ofSource source).givenResults requests
  refine ⟨String.ofList before, String.ofList rest, body, stop, ?_, ?_, ?_, ?_⟩
  · rw [← String.ofList_append, ← split, String.ofList_toList]
  · rw [asciiSize scan.ascii, String.toList_ofList]
    rwa [Nat.zero_add] at offence
  · refine tokenizeScan ?_
    rwa [String.toList_ofList]
  · rw [shared]
    exact ahead n

theorem givenStuck {i j : Nat} {c : Char} {position : Nat} {result : Except LexError Token}
    (here : ((TokenStream.ofSource source).answers requests)[i]? =
      some (some (.error (.unexpectedCharacter c position)))) (later : i < j)
    (there : ((TokenStream.ofSource source).answers requests)[j]? = some (some result)) :
    result = .error (.unexpectedCharacter c position) := by
  obtain ⟨_, after, finished, _, yields, rest⟩ :=
    TokenStream.givenAt (fun _ => True) trivial (fun _ _ => trivial) here
  obtain ⟨n, _, shared⟩ := (TokenStream.mk after finished).givenResults (requests.drop (i + 1))
  have member : result ∈ given (((TokenStream.ofSource source).answers requests).drop (i + 1)) := by
    refine List.mem_filterMap.mpr ⟨some result, List.mem_of_getElem? (i := j - (i + 1)) ?_, rfl⟩
    rw [List.getElem?_drop, Nat.add_sub_cancel' later, there]
  rw [rest, shared, Cursor.resultsStuck (Cursor.characterAgain yields)] at member
  exact List.eq_of_mem_replicate member

theorem givenResumed {i : Nat} {literal : String} {position : Nat}
    (here : ((TokenStream.ofSource source).answers requests)[i]? =
      some (some (.error (.invalidNumber literal position)))) :
    ∃ before rest n, source = before ++ literal ++ rest ∧ position = before.utf8ByteSize ∧
      given (((TokenStream.ofSource source).answers requests).drop (i + 1)) =
        (given ((TokenStream.ofSource rest).answers (List.replicate n .read))).map
          (movedResult (before ++ literal).utf8ByteSize) := by
  obtain ⟨c, after, finished, inside, yields, tail⟩ :=
    TokenStream.givenAt (Cursor.Inside source) (Cursor.insideStart source) (fun _ => Cursor.insideNext) here
  obtain ⟨before, rest, split, place, rfl⟩ := Cursor.numberBehind inside yields
  obtain ⟨n, _, shared⟩ := (TokenStream.mk _ finished).givenResults (requests.drop (i + 1))
  refine ⟨before, rest, n, split, place, ?_⟩
  rw [tail, shared, Cursor.resultsMoved, TokenStream.givenReads]
  rfl

end Answers

theorem requestsShareCursor (source : String) (requests : List Request) :
    Answered source requests ((TokenStream.ofSource source).answers requests) where
  each := TokenStream.answersLength _ requests
  silent i := by
    rw [TokenStream.silentIff]
    simp [TokenStream.ofSource]
  tokens tokens read := by
    rw [TokenStream.answersLength]
    exact givenTokens read
  error _ failed := givenError failed
  stuck _ _ _ _ _ later here there := givenStuck here later there
  resumed _ _ _ here := givenResumed here

-- the stream's own end is silent about the character that the cursor is stuck at
example : (TokenStream.ofSource "1 9223372036854775808#").answers
      [.next, .next, .next, .read, .next, .read] =
    [some (.ok ⟨.number (.int 1), ⟨0, 1⟩⟩), some (.error (.invalidNumber "9223372036854775808" 2)), none,
      some (.error (.unexpectedCharacter '#' 21)), none, some (.error (.unexpectedCharacter '#' 21))] := by
  decide +kernel

end CalcLang
