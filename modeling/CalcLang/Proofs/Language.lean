import CalcLang.Proofs.Parsing
import Mathlib.Data.List.TakeWhile

/-! The language of programs. Every text of the grammar is read as the statements it derives
unless one of the caps is passed, so on inputs within the caps reading and deriving are the
same thing. -/
namespace CalcLang

open Grammar

namespace Reader

theorem expressionRead (stop room : Nat) {nesting : Nat} {taken rest : List Token} {e : Expr}
    (phrase : Phrase .sum nesting (kinds taken) e) (ends : Ends .sum rest)
    (short : rest.length < (taken ++ rest).length) :
    Capped (nesting < room ∧ e.height ≤ heightLimit) (expression stop room (taken ++ rest))
      (.ok ⟨e, rest, short⟩) :=
  ((phraseRead phrase).nested stop room rfl rfl ends short).bind id
    fun fits => .same fits rfl

theorem moreParametersRead (stop : Nat) {outer taken rest : List Token} {span : Span}
    (more read : List String)
    (spelled : kinds taken = more.flatMap fun name => [.comma, .identifier name])
    (before : (taken ++ ⟨.rightParen, span⟩ :: rest).length < outer.length)
    (short : rest.length < outer.length) :
    moreElements stop (identifier stop)
        (⟨read, taken ++ ⟨.rightParen, span⟩ :: rest, before⟩ : Parsed _ outer) =
      .ok ⟨read.reverse ++ more, rest, short⟩ := by
  induction more generalizing taken read with
  | nil =>
    obtain rfl : taken = [] := List.map_eq_nil_iff.mp spelled
    rw [List.append_nil]
    exact moreElementsClose before
  | cons name more ih =>
    obtain ⟨comma, _, rfl, tail⟩ := kindsHead spelled
    obtain ⟨place, others, rfl, behind⟩ := kindsHead tail
    have fewer : (others ++ ⟨.rightParen, span⟩ :: rest).length < outer.length := by
      simp only [List.length_append, List.length_cons] at before ⊢
      omega
    have next := ih (name :: read) behind fewer
    rw [List.reverse_cons, List.append_assoc] at next
    exact (moreElementsComma before).trans next

theorem parametersRead (stop : Nat) {taken rest : List Token} {span : Span} {params : List String}
    (spelled : kinds taken = names params)
    (short : rest.length < (taken ++ ⟨.rightParen, span⟩ :: rest).length) :
    parameters stop (taken ++ ⟨.rightParen, span⟩ :: rest) = .ok ⟨params, rest, short⟩ := by
  cases params with
  | nil =>
    obtain rfl : taken = [] := List.map_eq_nil_iff.mp spelled
    rfl
  | cons name more =>
    rw [namesCons] at spelled
    obtain ⟨place, others, rfl, behind⟩ := kindsHead spelled
    exact moreParametersRead stop more [name] behind (Nat.lt_succ_self _) short

theorem definitionRead (stop room : Nat) {nesting : Nat} {list taken rest : List Token}
    {params : List String} {body : Expr} (name : String) (place opening closing sign : Span)
    (spelled : kinds list = names params) (phrase : Phrase .sum nesting (kinds taken) body)
    (ends : Ends .sum rest)
    (short : rest.length < (⟨.identifier name, place⟩ :: ⟨.leftParen, opening⟩ ::
      (list ++ ⟨.rightParen, closing⟩ :: ⟨.assign, sign⟩ :: (taken ++ rest))).length) :
    Capped (nesting < room ∧ body.height ≤ heightLimit)
      (definition stop (expression stop room) (⟨.identifier name, place⟩ :: ⟨.leftParen, opening⟩ ::
        (list ++ ⟨.rightParen, closing⟩ :: ⟨.assign, sign⟩ :: (taken ++ rest))))
      (.ok ⟨.define name params body, rest, short⟩) := by
  have listRead : parameters stop
      (list ++ ⟨.rightParen, closing⟩ :: ⟨.assign, sign⟩ :: (taken ++ rest)) = _ :=
    parametersRead stop spelled (by simp only [List.length_append, List.length_cons]; omega)
  have bodyRead := expressionRead stop room phrase ends (phraseShort phrase rest)
  unfold definition
  have named : Capped True (identifier stop (⟨.identifier name, place⟩ :: ⟨.leftParen, opening⟩ ::
      (list ++ ⟨.rightParen, closing⟩ :: ⟨.assign, sign⟩ :: (taken ++ rest)))) _ :=
    .same trivial rfl
  refine named.bind (fun _ => trivial) fun _ => ?_
  refine (Capped.same trivial listRead).bind (fun _ => trivial) fun _ => ?_
  exact bodyRead.bind id fun fits => .same fits rfl

theorem statementEval {stop : Nat} {value : Reader Expr} {input : List Token}
    (noDefinition : (kinds input).head? ≠ some .function)
    (noAssignment : (kinds input).tail.head? ≠ some .assign) :
    statement stop value input =
      (value input >>= fun e => .ok ⟨.eval e.value, e.rest, e.shorter⟩) := by
  unfold statement
  split
  · exact absurd rfl noDefinition
  · exact absurd rfl noAssignment
  · rfl

theorem phraseNoAssignment {l : Level} {nesting : Nat} {word behind : List TokenKind} {e : Expr}
    (phrase : Phrase l nesting word e) (apart : behind.head? ≠ some .assign) :
    (word ++ behind).tail.head? ≠ some .assign := by
  have absent := (phraseOutside phrase).1
  obtain ⟨kind, more, rfl, -⟩ := phraseOpens phrase
  cases more with
  | nil => exact apart
  | cons next more =>
    rintro ⟨⟩
    simp at absent

theorem clauseRead (stop room : Nat) {nesting : Nat} {input taken rest : List Token} {s : Statement}
    (split : input = taken ++ rest) (clause : Clause nesting (kinds taken) s)
    (ends : Ends .sum rest) (apart : (kinds rest).head? ≠ some .assign)
    (short : rest.length < input.length) :
    Capped (nesting < room ∧ s.expr.height ≤ heightLimit)
      (statement stop (expression stop room) input) (.ok ⟨s, rest, short⟩) := by
  generalize spelled : kinds taken = word at clause
  cases clause with
  | define name params value =>
    obtain ⟨keyword, _, rfl, fromName⟩ := kindsHead spelled
    obtain ⟨place, _, rfl, fromOpening⟩ := kindsHead fromName
    obtain ⟨opening, _, rfl, fromList⟩ := kindsHead fromOpening
    obtain ⟨list, closing, _, rfl, listed, fromSign⟩ := kindsSplit fromList
    obtain ⟨sign, body, rfl, rfl⟩ := kindsHead fromSign
    simp only [List.cons_append, List.append_assoc] at split
    subst split
    have read := definitionRead stop room name place opening closing sign listed value ends
      (by simp only [List.length_append, List.length_cons]; omega)
    exact read.bind id fun fits => .same fits rfl
  | assign name value =>
    obtain ⟨place, _, rfl, fromSign⟩ := kindsHead spelled
    obtain ⟨sign, body, rfl, rfl⟩ := kindsHead fromSign
    subst split
    have read := expressionRead stop room value ends (phraseShort value rest)
    exact read.bind id fun fits => .same fits rfl
  | eval value =>
    subst spelled split
    have read := expressionRead stop room value ends short
    rw [statementEval]
    · exact read.bind id fun fits => .same fits rfl
    · obtain ⟨kind, more, spelled, opens⟩ := phraseOpens value
      rw [kindsAppend, spelled]
      rintro ⟨⟩
      cases opens
    · rw [kindsAppend]
      exact phraseNoAssignment value apart

theorem clauseHead {nesting : Nat} {word : List TokenKind} {s : Statement}
    (clause : Clause nesting word s) :
    ∃ kind more, word = kind :: more ∧ (kind = .function ∨ kind.opens = true) := by
  cases clause with
  | define => exact ⟨_, _, rfl, .inl rfl⟩
  | assign => exact ⟨_, _, rfl, .inr rfl⟩
  | eval value =>
    obtain ⟨kind, more, rfl, opens⟩ := phraseOpens value
    exact ⟨kind, more, rfl, .inr opens⟩

theorem textHead {nesting : Nat} {word : List TokenKind} {statements : List Statement}
    (text : Text nesting word statements) :
    ∀ kind ∈ word.head?, kind = .newline ∨ kind = .function ∨ kind.opens = true := by
  cases text with
  | nil => rintro _ ⟨⟩
  | newline rest =>
    rintro _ ⟨⟩
    exact .inl rfl
  | clause first apart rest =>
    obtain ⟨kind, more, rfl, opens⟩ := clauseHead first
    rintro _ ⟨⟩
    exact .inr opens

theorem textApart {nesting : Nat} {rest : List Token} {statements : List Statement}
    (text : Text nesting (kinds rest) statements) (apart : (kinds rest).head? ≠ some .leftParen) :
    Ends .sum rest ∧ (kinds rest).head? ≠ some .assign := by
  have starts := textHead text
  cases rest with
  | nil => exact ⟨by rintro _ ⟨⟩, by simp⟩
  | cons t rest =>
    have start := starts t.kind rfl
    refine ⟨?_, ?_⟩
    · rintro _ ⟨⟩
      cases kind : t.kind <;> simp_all [Level.continues, TokenKind.opens]
    · intro sign
      obtain same : t.kind = .assign := Option.some.inj sign
      simp [same, TokenKind.opens] at start

theorem statementsClause {stop : Nat} {read : List Statement} {input : List Token}
    {kind : TokenKind} (first : (kinds input).head? = some kind) (notBlank : kind ≠ .newline) :
    statements stop read input =
      (statement stop (expression stop nestingLimit) input >>= fun s =>
        statements stop (s.value :: read) s.rest) := by
  rw [statements.eq_def]
  split
  · cases first
  · cases first
    exact absurd rfl notBlank
  · rfl

theorem textRead {nesting : Nat} {word : List TokenKind} {all : List Statement}
    (text : Text nesting word all) (stop : Nat) (read : List Statement) {input : List Token}
    (spelled : kinds input = word) :
    Capped (nesting < nestingLimit ∧ ∀ s ∈ all, s.expr.height ≤ heightLimit)
      (statements stop read input) (.ok (read.reverse ++ all)) := by
  induction text generalizing read input with
  | nil =>
    obtain rfl : input = [] := List.map_eq_nil_iff.mp spelled
    exact .same ⟨by decide, by simp⟩ (by simp [statements])
  | newline _ ih =>
    obtain ⟨span, rest, rfl, behind⟩ := kindsHead spelled
    rw [statements]
    exact ih read behind
  | @clause nesting word s deeper more others first apart rest ih =>
    obtain ⟨taken, behind, rfl, rfl, rfl⟩ := List.map_eq_append_iff.mp spelled
    obtain ⟨kind, tail, headed, opens⟩ := clauseHead first
    -- the next statement starts with nothing that this one could go on with
    obtain ⟨ends, noAssign⟩ := textApart rest apart
    obtain ⟨span, tokens, rfl, -⟩ := kindsHead headed
    have short : behind.length < (⟨kind, span⟩ :: tokens ++ behind).length := by
      simp only [List.cons_append, List.length_cons, List.length_append]
      omega
    have notBlank : kind ≠ .newline := by
      rintro rfl
      simp [TokenKind.opens] at opens
    rw [statementsClause rfl notBlank]
    refine (clauseRead stop nestingLimit rfl first ends noAssign short).bind ?_ fun fits => ?_
    · exact fun fits => ⟨by omega, fits.2 s (by simp)⟩
    · refine (ih (s :: read) rfl).trans ?_ fun later => ?_
      · exact fun fits => ⟨by omega, fun other member => fits.2 other (by simp [member])⟩
      · exact .same ⟨by omega, by simpa using ⟨fits.2, later.2⟩⟩ (by simp)

end Reader

section Sentences

variable {before : List Token} {ending : Token}

theorem isEndIff {kind : TokenKind} : kind.isEnd = true ↔ kind = .endOfInput := by
  cases kind <;> simp [TokenKind.isEnd]

theorem sentencePlain (tokens : List Token) : ∀ t ∈ sentence tokens, t.kind ≠ .endOfInput := by
  intro t mem same
  have early := List.mem_takeWhile_imp mem
  simp [isEndIff.mpr same] at early

theorem sentenceBefore (plain : ∀ t ∈ before, t.kind ≠ .endOfInput) (ends : ending.kind = .endOfInput)
    (later : List Token) : sentence (before ++ ending :: later) = before := by
  have early : ∀ t ∈ before, (!t.kind.isEnd) = true := by
    intro t mem
    simpa [Bool.eq_false_iff, isEndIff] using plain t mem
  rw [sentence, List.takeWhile_append_of_pos early,
    List.takeWhile_cons_of_neg (by simp [isEndIff.mpr ends]), List.append_nil]

theorem stopBefore (plain : ∀ t ∈ before, t.kind ≠ .endOfInput) (ends : ending.kind = .endOfInput)
    (later : List Token) : stopPosition (before ++ ending :: later) = ending.span.start := by
  have none : before.find? (·.kind.isEnd) = none :=
    List.find?_eq_none.mpr fun t mem isEnd => plain t mem (isEndIff.mp isEnd)
  have here : (ending :: later).find? (·.kind.isEnd) = some ending :=
    List.find?_cons_of_pos (isEndIff.mpr ends)
  rw [stopPosition, List.find?_append, none, Option.none_or, here]

end Sentences

namespace Program

def Derived (tokens : List Token) (p : Program) : Prop :=
  ∃ nesting, Text nesting (kinds (sentence tokens)) p.statements

theorem derivedOfTokens {tokens : List Token} {p : Program} (read : ofTokens tokens = .ok p) :
    Derived tokens p := by
  obtain ⟨all, readAll, read⟩ := bindOk read
  obtain ⟨nesting, more, same, -, text, -⟩ := Reader.statementsSound readAll
  cases read
  obtain rfl : all = more := same
  exact ⟨nesting, text⟩

theorem ofTokensCapped {tokens : List Token} {p : Program} {nesting : Nat}
    (text : Text nesting (kinds (sentence tokens)) p.statements) :
    Capped (nesting < nestingLimit ∧ ∀ s ∈ p.statements, s.expr.height ≤ heightLimit)
      (ofTokens tokens) (.ok p) :=
  (Reader.textRead text (stopPosition tokens) [] rfl).bind id fun fits => .same fits rfl

theorem ofTokensDerived {tokens : List Token} {p : Program} (derived : Derived tokens p) :
    ofTokens tokens = .ok p ∨ TooDeep (ofTokens tokens) := by
  obtain ⟨nesting, text⟩ := derived
  have capped := ofTokensCapped text
  by_cases fits : nesting < nestingLimit ∧ ∀ s ∈ p.statements, s.expr.height ≤ heightLimit
  · exact .inl (capped.fit fits)
  · exact .inr (capped.unfit fits)

theorem ofTokensEnd {ending : Token} (isEnd : ending.kind = .endOfInput)
    (before later : List Token) :
    ofTokens (before ++ ending :: later) = ofTokens (before ++ [ending]) := by
  have words : sentence (before ++ ending :: later) = sentence (before ++ [ending]) := by
    simp [sentence, List.takeWhile_append, isEnd, TokenKind.isEnd]
  have stops : stopPosition (before ++ ending :: later) = stopPosition (before ++ [ending]) := by
    simp [stopPosition, List.find?_append, isEnd, TokenKind.isEnd]
  rw [ofTokens, ofTokens, words, stops]

end Program

theorem ofTokensExact {tokens : List Token}
    (shallow : ∀ limit position, Program.ofTokens tokens ≠ .error (.tooDeep limit position)) :
    (∀ p, Program.ofTokens tokens = .ok p ↔ Program.Derived tokens p) ∧
      (∀ p q, Program.Derived tokens p → Program.Derived tokens q → p = q) ∧
      ((∃ expected found position,
          Program.ofTokens tokens = .error (.unexpected expected found position)) ↔
        ¬ ∃ p, Program.Derived tokens p) ∧
      ∀ before ending later, tokens = before ++ ending :: later → ending.kind = .endOfInput →
        ∀ other, Program.ofTokens (before ++ ending :: other) = Program.ofTokens tokens := by
  have read : ∀ p, Program.Derived tokens p → Program.ofTokens tokens = .ok p := by
    intro p derived
    obtain done | ⟨limit, position, -, failed⟩ := Program.ofTokensDerived derived
    · exact done
    · exact absurd failed (shallow limit position)
  refine ⟨fun p => ⟨Program.derivedOfTokens, read p⟩, ?_, ⟨?_, ?_⟩, ?_⟩
  · intro p q first second
    exact Except.ok.inj ((read p first).symm.trans (read q second))
  · rintro ⟨expected, found, position, failed⟩ ⟨p, derived⟩
    rw [read p derived] at failed
    cases failed
  · intro none
    cases outcome : Program.ofTokens tokens with
    | ok p => exact absurd ⟨p, Program.derivedOfTokens outcome⟩ none
    | error e =>
      cases e with
      | unexpected expected found position => exact ⟨expected, found, position, rfl⟩
      | tooDeep limit position => exact absurd outcome (shallow limit position)
  · rintro before ending later rfl isEnd other
    rw [Program.ofTokensEnd isEnd before other, Program.ofTokensEnd isEnd before later]

/-- The tokens of `a = b ^ c ^ d` and, on the next line, `(f)(a)`; behind the end stands a
parenthesis that is never read. -/
def chainAndCall : List Token :=
  [.identifier "a", .assign, .identifier "b", .operator .pow, .identifier "c", .operator .pow,
    .identifier "d", .newline, .leftParen, .identifier "f", .rightParen, .leftParen,
    .identifier "a", .rightParen, .endOfInput, .rightParen].map fun kind => ⟨kind, ⟨0, 0⟩⟩

theorem ofTokensExactChain :
    (∀ limit position, Program.ofTokens chainAndCall ≠ .error (.tooDeep limit position)) ∧
      Program.ofTokens chainAndCall =
        .ok ⟨[.assign "a" (.binary .pow (.binary .pow (.var "b") (.var "c")) (.var "d")),
          .eval (.call (.var "f") [.var "a"])]⟩ := by
  have count : (Program.ofTokens chainAndCall).toOption.map (·.statements.length) = some 2 := by
    decide +kernel
  have shallow : ∀ limit position,
      Program.ofTokens chainAndCall ≠ .error (.tooDeep limit position) := by
    intro limit position failed
    rw [failed] at count
    cases count
  have powers : Phrase .power 0 [.identifier "b", .operator .pow, .identifier "c", .operator .pow,
      .identifier "d"] (.binary .pow (.binary .pow (.var "b") (.var "c")) (.var "d")) :=
    have atom (name : String) : Phrase .call 0 [.identifier name] (.var name) :=
      .loosen (.name name)
    have first : Phrase (level .pow) 0 [.identifier "b"] (.var "b") := .loosen (atom "b")
    .binary (.binary first (atom "c")) (atom "d")
  have called : Phrase .call 1 [.leftParen, .identifier "f", .rightParen, .leftParen,
      .identifier "a", .rightParen] (.call (.var "f") [.var "a"]) :=
    have name (text : String) : Phrase .sum 0 [.identifier text] (.var text) :=
      .loosen (.loosen (.loosen (.loosen (.name text))))
    .call (.loosen (.group (name "f"))) (.last (name "a"))
  refine ⟨shallow, ((ofTokensExact shallow).1 _).mpr ⟨1, ?_⟩⟩
  exact .clause (.assign "a" (.loosen (.loosen powers))) (by decide)
    (.newline (.clause (.eval (.loosen (.loosen (.loosen called)))) (by decide) .nil))

end CalcLang
