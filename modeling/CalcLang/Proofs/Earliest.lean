import CalcLang.Proofs.Viability

/-! Syntax errors stand as early as they can. What was read before the token of an error is the
beginning of some program, and no program begins with that token behind it. -/
namespace CalcLang

open Grammar

def IsParameters (word : List TokenKind) : Prop := ∃ params, word = names params ++ [.rightParen]

def IsClause (word : List TokenKind) : Prop := ∃ nesting s, Clause nesting word s

namespace Reader

variable {stop room : Nat}

theorem expressionFails : fails (expression stop room) = fails (nested stop room) :=
  funext fun input => faultOk (nested stop room input) _

theorem expressionBlocks : Blocks stop (Begins (IsPhrase .sum)) (fails (expression stop room)) := by
  rw [expressionFails]
  exact nestedBlocks stop room

theorem expressionLocal : Local (IsPhrase .sum) (expression stop room) := by
  intro input r done
  obtain ⟨e, readNested, done⟩ := bindOk done
  obtain ⟨taken, split, phrase, retaken⟩ := nestedLocal stop room input e readNested
  cases done
  refine ⟨taken, split, phrase, fun other alike short => ?_⟩
  rw [expression, retaken other alike short]
  rfl

def IsName (word : List TokenKind) : Prop := ∃ name, word = [.identifier name]

theorem identifierOther {input : List Token}
    (other : ∀ name span rest, input ≠ ⟨.identifier name, span⟩ :: rest) :
    identifier stop input = .error (unexpected stop .identifier input) := by
  unfold identifier
  split
  · exact absurd rfl (other _ _ _)
  · rfl

theorem identifierBlocks : Blocks stop (Begins IsName) (fails (identifier stop)) := by
  intro input expected found position failed
  refine ⟨[], input, .identifier, rfl, ⟨[.identifier "a"], "a", rfl⟩, fun other alike => ?_⟩
  refine faultSome.mpr (identifierOther fun name span rest same => ?_)
  rw [List.nil_append] at same
  subst same
  obtain ⟨place, tail, rfl⟩ := alike.starts
  cases failed

theorem identifierLocal : Local IsName (identifier stop) := by
  intro input r done
  obtain ⟨span, split⟩ := identifierOk done
  exact ⟨[⟨.identifier r.value, span⟩], split, ⟨r.value, rfl⟩, fun other alike short => rfl⟩

def IsMore (word : List TokenKind) : Prop :=
  ∃ more : List String, word = (more.flatMap fun name => [.comma, .identifier name]) ++ [.rightParen]

theorem moreComma {word more : List TokenKind} (name : IsName word) (others : IsMore more) :
    IsMore (.comma :: (word ++ more)) := by
  obtain ⟨name, rfl⟩ := name
  obtain ⟨names, rfl⟩ := others
  exact ⟨name :: names, rfl⟩

theorem moreNone : IsMore [.rightParen] := ⟨[], rfl⟩

theorem parametersBlocks : Blocks stop (Begins IsParameters) (fails (parameters stop)) := by
  intro input expected found position failed
  rw [fails, faultSome] at failed
  unfold parameters at failed
  split at failed
  · next name span rest =>
    obtain ⟨taken, behind, wanted, split, ⟨more, others, same⟩, stuck⟩ :=
      moreElementsBlocked identifierBlocks identifierLocal moreNone (fun _ _ => moreComma) failed
    refine ⟨⟨.identifier name, span⟩ :: taken, behind, wanted, congrArg _ split,
      ⟨more, name :: others, ?_⟩, fun other alike => ?_⟩
    · rw [namesCons, kindsCons, List.cons_append, List.cons_append, same]
    · exact faultSome.mpr (stuck other alike _ rfl)
  · cases failed
  · next noName noClosing =>
    refine ⟨[], input, .rightParen, rfl, ⟨[.rightParen], [], rfl⟩, fun other alike => ?_⟩
    rw [List.nil_append, fails]
    unfold parameters
    split
    · obtain ⟨place, tail, rfl⟩ := alike.starts
      exact absurd rfl (noName _ _ _)
    · obtain ⟨place, tail, rfl⟩ := alike.starts
      exact absurd rfl (noClosing _ _)
    · rfl

theorem parametersLocal : Local IsParameters (parameters stop) := by
  intro input r done
  obtain ⟨taken, split, word⟩ := parametersSound done
  obtain ⟨list, span, rfl, spelled⟩ := kindsLast word
  refine ⟨list ++ [⟨.rightParen, span⟩], split, ⟨r.value, word⟩, fun other alike => ?_⟩
  rw [List.append_assoc]
  exact parametersRead stop spelled

theorem anyPhrase : IsPhrase .sum [.number (.int 0)] :=
  ⟨0, _, .loosen (.loosen (.loosen (.loosen (.number _))))⟩

section Definitions

variable {value : Reader Expr}

theorem definitionFails : fails (definition stop value) =
    chain (identifier stop) (chain (expect stop .leftParen .leftParen) (chain (parameters stop)
      (chain (expect stop .assign .assign) (fails value)))) :=
  funext fun _ => faultChain fun _ => faultChain fun _ => faultChain fun _ => faultChain fun _ =>
    faultOk _ _

theorem definitionClause {word : List TokenKind}
    (pieces : Followed IsName (Followed (· = [.leftParen]) (Followed IsParameters
      (Followed (· = [.assign]) (IsPhrase .sum)))) word) : IsClause (.function :: word) := by
  obtain ⟨_, _, ⟨name, rfl⟩, ⟨_, _, rfl, ⟨_, _, ⟨params, rfl⟩, ⟨_, _, rfl, body, rfl⟩, rfl⟩, rfl⟩, rfl⟩ :=
    pieces
  obtain ⟨nesting, e, phrase⟩ := body
  exact ⟨nesting, _, by simpa using Clause.define name params phrase⟩

theorem definitionBlocks (blocks : Blocks stop (Begins (IsPhrase .sum)) value.fails) :
    Blocks stop (fun word => Begins IsClause (.function :: word)) (fails (definition stop value)) := by
  have body : Blocks stop _ _ := (expectBlocks .assign .assign).chain (expectLocal .assign .assign)
    blocks ⟨_, anyPhrase⟩
  have list : Blocks stop _ _ := parametersBlocks.chain parametersLocal body
    ⟨_, _, _, rfl, anyPhrase, rfl⟩
  have opened : Blocks stop _ _ := (expectBlocks .leftParen .leftParen).chain
    (expectLocal .leftParen .leftParen) list ⟨_, _, _, ⟨[], rfl⟩, ⟨_, _, rfl, anyPhrase, rfl⟩, rfl⟩
  have named : Blocks stop _ _ := identifierBlocks.chain identifierLocal opened
    ⟨_, _, _, rfl, ⟨_, _, ⟨[], rfl⟩, ⟨_, _, rfl, anyPhrase, rfl⟩, rfl⟩, rfl⟩
  rw [definitionFails]
  refine named.mono ?_
  rintro word ⟨more, pieces⟩
  exact ⟨more, definitionClause pieces⟩

theorem definitionLocal (takes : Local (IsPhrase .sum) value) :
    Local (fun word => IsClause (.function :: word)) (definition stop value) := by
  intro input r done
  obtain ⟨name, readName, done⟩ := bindOk done
  obtain ⟨opening, readOpening, done⟩ := bindOk done
  obtain ⟨params, readParams, done⟩ := bindOk done
  obtain ⟨equals, readEquals, done⟩ := bindOk done
  obtain ⟨body, readBody, done⟩ := bindOk done
  cases done
  obtain ⟨first, splitFirst, isName, againName⟩ := identifierLocal _ _ readName
  obtain ⟨second, splitSecond, isOpening, againOpening⟩ := expectLocal _ _ _ _ readOpening
  obtain ⟨list, splitList, isList, againList⟩ := parametersLocal _ _ readParams
  obtain ⟨sign, splitSign, isSign, againSign⟩ := expectLocal _ _ _ _ readEquals
  obtain ⟨taken, splitBody, isBody, againBody⟩ := takes _ _ readBody
  refine ⟨first ++ (second ++ (list ++ (sign ++ taken))), ?_, ?_, fun other alike => ?_⟩
  · simp only [List.append_assoc, ← splitBody, ← splitSign, ← splitList, ← splitSecond]
    exact splitFirst
  · refine definitionClause ⟨_, _, isName, ⟨_, _, isOpening, ⟨_, _, isList, ⟨_, _, isSign, isBody, rfl⟩,
      rfl⟩, rfl⟩, ?_⟩
    simp
  · have alikeSign := alike.extend splitBody
    have alikeList := alikeSign.extend splitSign
    have alikeOpening := alikeList.extend splitList
    have alikeName := alikeOpening.extend splitSecond
    have whole : first ++ (second ++ (list ++ (sign ++ taken))) ++ other =
        first ++ (second ++ (list ++ (sign ++ (taken ++ other)))) := by simp
    rw [whole]
    intro short
    rw [definition, againName _ alikeName (name.shortAgain splitFirst _)]
    show (expect stop .leftParen .leftParen _ >>= _) = _
    rw [againOpening _ alikeOpening (opening.shortAgain splitSecond _)]
    show (parameters stop _ >>= _) = _
    rw [againList _ alikeList (params.shortAgain splitList _)]
    show (expect stop .assign .assign _ >>= _) = _
    rw [againSign _ alikeSign (equals.shortAgain splitSign _)]
    show (value _ >>= _) = _
    rw [againBody _ alike (body.shortAgain splitBody _)]
    rfl

end Definitions

structure Plain (word : List TokenKind) : Prop where
  noDefinition : word.head? ≠ some .function
  noAssignment : ∀ name, word.take 2 ≠ [.identifier name, .assign]

theorem Plain.alike {taken behind other : List Token} (plain : Plain (kinds (taken ++ behind)))
    (some : taken ≠ []) (alike : Alike behind other) : Plain (kinds (taken ++ other)) := by
  obtain ⟨t, taken, rfl⟩ := List.exists_cons_of_ne_nil some
  refine ⟨plain.noDefinition, fun name assigned => plain.noAssignment name ?_⟩
  have same := alike.append taken
  rw [List.cons_append, kindsCons, List.take_succ_cons, List.take_one] at assigned ⊢
  rwa [← same]

theorem assignmentSpelled {word : List TokenKind} {name : String}
    (assigned : word.take 2 = [.identifier name, .assign]) :
    word = .identifier name :: .assign :: word.drop 2 :=
  (List.take_append_drop 2 word).symm.trans (congrArg (· ++ _) assigned)

theorem statementCases (input : List Token) :
    (∃ span rest, input = ⟨.function, span⟩ :: rest) ∨
      (∃ name place span rest, input = ⟨.identifier name, place⟩ :: ⟨.assign, span⟩ :: rest) ∨
      Plain (kinds input) := by
  by_cases defines : (kinds input).head? = some .function
  · obtain ⟨tail, spelled⟩ := List.head?_eq_some_iff.mp defines
    obtain ⟨span, rest, rfl, -⟩ := kindsHead spelled
    exact .inl ⟨span, rest, rfl⟩
  · by_cases assigns : ∃ name, (kinds input).take 2 = [.identifier name, .assign]
    · obtain ⟨name, assigned⟩ := assigns
      obtain ⟨place, rest, rfl, tail⟩ := kindsHead (assignmentSpelled assigned)
      obtain ⟨span, rest, rfl, -⟩ := kindsHead tail
      exact .inr (.inl ⟨name, place, span, rest, rfl⟩)
    · exact .inr (.inr ⟨defines, fun name same => assigns ⟨name, same⟩⟩)

section Statements

variable {value : Reader Expr}

theorem statementPlain {input : List Token} (plain : Plain (kinds input)) :
    statement stop value input =
      (value input >>= fun e => .ok ⟨.eval e.value, e.rest, e.shorter⟩) := by
  unfold statement
  split
  · exact absurd rfl plain.noDefinition
  · exact absurd rfl (plain.noAssignment _)
  · rfl

theorem statementDefine (span : Span) (rest : List Token) :
    fails (statement stop value) (⟨.function, span⟩ :: rest) = fails (definition stop value) rest :=
  faultOk (definition stop value rest) _

theorem statementAssign (name : String) (place span : Span) (rest : List Token) :
    fails (statement stop value) (⟨.identifier name, place⟩ :: ⟨.assign, span⟩ :: rest) =
      fails value rest :=
  faultOk (value rest) _

theorem statementEvaluate {input : List Token} (plain : Plain (kinds input)) :
    fails (statement stop value) input = fails value input := by
  rw [fails, statementPlain plain]
  exact faultOk _ _

theorem expressionName (name : String) (span : Span) :
    fails (expression stop nestingLimit) [⟨.identifier name, span⟩] = none := by
  have phrase : Phrase .sum 0 (kinds [⟨.identifier name, span⟩]) (.var name) :=
    .loosen (.loosen (.loosen (.loosen (.name name))))
  have ends : Ends .sum [] := by rintro t ⟨⟩
  have read := expressionRead stop nestingLimit phrase ends (phraseShort phrase [])
  exact congrArg fault (read.fit ⟨by decide, Nat.zero_le _⟩)

theorem statementBlocks :
    Blocks stop (Begins IsClause) (fails (statement stop (expression stop nestingLimit))) := by
  intro input expected found position failed
  rcases statementCases input with ⟨span, rest, rfl⟩ | ⟨name, place, span, rest, rfl⟩ | plain
  · rw [statementDefine] at failed
    obtain ⟨taken, behind, wanted, rfl, viable, stuck⟩ := definitionBlocks expressionBlocks rest _ _ _ failed
    refine ⟨⟨.function, span⟩ :: taken, behind, wanted, rfl, viable, fun other alike => ?_⟩
    exact (statementDefine span _).trans (stuck other alike)
  · rw [statementAssign] at failed
    obtain ⟨taken, behind, wanted, rfl, ⟨more, nesting, e, phrase⟩, stuck⟩ :=
      expressionBlocks rest _ _ _ failed
    refine ⟨⟨.identifier name, place⟩ :: ⟨.assign, span⟩ :: taken, behind, wanted, rfl,
      ⟨more, nesting, _, .assign name phrase⟩, fun other alike => ?_⟩
    exact (statementAssign name place span _).trans (stuck other alike)
  · rw [statementEvaluate plain] at failed
    obtain ⟨taken, behind, wanted, rfl, ⟨more, nesting, e, phrase⟩, stuck⟩ :=
      expressionBlocks input _ _ _ failed
    refine ⟨taken, behind, wanted, rfl, ⟨more, nesting, _, .eval phrase⟩, fun other alike => ?_⟩
    rw [statementEvaluate, stuck other alike]
    by_cases some : taken = []
    · subst some
      refine ⟨fun same => plain.noDefinition (alike.symm.trans same), fun name same => ?_⟩
      -- a name does not stop the reading of an expression
      obtain ⟨place, tail, rfl, -⟩ := kindsHead (assignmentSpelled same)
      cases (expressionName name place).symm.trans (stuck [⟨.identifier name, place⟩] alike)
    · exact plain.alike some alike

theorem statementLocal (takes : Local (IsPhrase .sum) value) :
    Local IsClause (statement stop value) := by
  intro input r done
  rcases statementCases input with ⟨span, rest, rfl⟩ | ⟨name, place, span, rest, rfl⟩ | plain
  · obtain ⟨s, readDefinition, done⟩ := bindOk done
    cases done
    obtain ⟨taken, split, clause, retaken⟩ := definitionLocal takes rest s readDefinition
    refine ⟨⟨.function, span⟩ :: taken, congrArg _ split, clause, fun other alike short => ?_⟩
    show (definition stop value (taken ++ other) >>= _) = _
    rw [retaken other alike (s.shortAgain split other)]
    rfl
  · obtain ⟨e, readExpression, done⟩ := bindOk done
    cases done
    obtain ⟨taken, split, ⟨nesting, tree, phrase⟩, retaken⟩ := takes rest e readExpression
    refine ⟨⟨.identifier name, place⟩ :: ⟨.assign, span⟩ :: taken, ?_, ⟨nesting, _, .assign name phrase⟩,
      fun other alike short => ?_⟩
    · rw [List.cons_append, List.cons_append, ← split]
    · show (value (taken ++ other) >>= _) = _
      rw [retaken other alike (e.shortAgain split other)]
      rfl
  · rw [statementPlain plain] at done
    obtain ⟨e, readExpression, done⟩ := bindOk done
    cases done
    obtain ⟨taken, split, ⟨nesting, tree, phrase⟩, retaken⟩ := takes input e readExpression
    refine ⟨taken, split, ⟨nesting, _, .eval phrase⟩, fun other alike short => ?_⟩
    have some : taken ≠ [] := by
      rintro rfl
      exact absurd (e.shortAgain split []) (Nat.lt_irrefl _)
    have plainAgain : Plain (kinds (taken ++ other)) := by
      refine Plain.alike ?_ some alike
      rw [← split]
      exact plain
    rw [statementPlain plainAgain, retaken other alike short]
    rfl

end Statements

/-- The beginnings of programs. The empty one is only completed by nothing, so that it may stand
behind any statement. -/
def BeginsText (word : List TokenKind) : Prop :=
  ∃ more nesting statements, Text nesting (word ++ more) statements ∧ (word = [] → more = [])

theorem beginsNewline {word : List TokenKind} (viable : BeginsText word) :
    BeginsText (.newline :: word) := by
  obtain ⟨more, nesting, statements, text, -⟩ := viable
  exact ⟨more, nesting, statements, .newline text, by simp⟩

theorem beginsClause {word : List TokenKind} (viable : Begins IsClause word) : BeginsText word := by
  by_cases some : word = []
  · subst some
    exact ⟨[], 0, [], .nil, fun _ => rfl⟩
  · obtain ⟨more, nesting, s, clause⟩ := viable
    refine ⟨more, max nesting 0, [s], ?_, fun none => absurd none some⟩
    rw [← List.append_nil (word ++ more)]
    exact .clause clause (by simp) .nil

theorem beginsBehind {word more : List TokenKind} (clause : IsClause word)
    (apart : more.head? ≠ some .leftParen) (viable : BeginsText more) : BeginsText (word ++ more) := by
  obtain ⟨nesting, s, clause⟩ := clause
  obtain ⟨rest, deeper, statements, text, none⟩ := viable
  obtain ⟨kind, tail, rfl, -⟩ := clauseHead clause
  refine ⟨rest, max nesting deeper, s :: statements, ?_, by simp⟩
  rw [List.append_assoc]
  refine .clause clause ?_ text
  cases more with
  | nil => rw [none rfl]; simp
  | cons kind more => exact apart

theorem statementsBlocked {read : List Statement} {input : List Token} {expected : Expectation}
    {found : TokenKind} {position : Nat}
    (failed : statements stop read input = .error (.unexpected expected found position)) :
    ∃ taken behind wanted, input = taken ++ behind ∧ BeginsText (kinds taken) ∧
      ∀ other, Alike behind other → ∀ read,
        statements stop read (taken ++ other) = .error (unexpected stop wanted other) := by
  fun_induction statements stop read input with
  | case1 => cases failed
  | case2 read span rest ih =>
    obtain ⟨taken, behind, wanted, rfl, viable, stuck⟩ := ih failed
    refine ⟨⟨.newline, span⟩ :: taken, behind, wanted, rfl, beginsNewline viable, ?_⟩
    intro other alike read
    rw [List.cons_append, statements]
    exact stuck other alike read
  | case3 read t rest notBlank ih =>
    have starts {taken behind other : List Token} (split : t :: rest = taken ++ behind)
        (alike : Alike behind other) : (kinds (taken ++ other)).head? = some t.kind := by
      have same := alike.append taken
      rwa [← split] at same
    have clause : t.kind ≠ .newline := fun same => notBlank t.span (by rw [← same])
    rcases bindError failed with stopped | ⟨s, readStatement, failed⟩
    · obtain ⟨taken, behind, wanted, split, viable, stuck⟩ :=
        statementBlocks (t :: rest) _ _ _ (faultSome.mpr stopped)
      refine ⟨taken, behind, wanted, split, beginsClause viable, fun other alike read => ?_⟩
      rw [statementsClause (starts split alike) clause, faultSome.mp (stuck other alike)]
      rfl
    · obtain ⟨word, split, isClause, retaken⟩ :=
        statementLocal expressionLocal (t :: rest) s readStatement
      obtain ⟨-, -, -, -, -, -, closed⟩ := statementSound readStatement
      obtain ⟨taken, behind, wanted, splitRest, viable, stuck⟩ := ih s failed
      have whole : t :: rest = word ++ taken ++ behind := by
        rw [List.append_assoc, ← splitRest]
        exact split
      have apart : (kinds taken).head? ≠ some .leftParen := by
        intro opening
        obtain ⟨tail, spelled⟩ := List.head?_eq_some_iff.mp opening
        exact closed (by rw [splitRest, kindsAppend, spelled]; rfl)
      refine ⟨word ++ taken, behind, wanted, whole, ?_, fun other alike read => ?_⟩
      · rw [kindsAppend]
        exact beginsBehind isClause apart viable
      · have begun := starts whole alike
        rw [List.append_assoc] at begun ⊢
        rw [statementsClause begun clause, retaken _ (alike.extend splitRest) (s.shortAgain split _)]
        exact stuck other alike _

end Reader

theorem textNoEnd {nesting : Nat} {word : List TokenKind} {statements : List Statement}
    (text : Text nesting word statements) : .endOfInput ∉ word := by
  induction text with
  | nil => simp
  | newline _ ih => simp [ih]
  | clause first _ _ ih =>
    cases first with
    | define name params value =>
      have listed : .endOfInput ∉ names params := by
        cases params with
        | nil => simp [names]
        | cons name more => simp [Reader.namesCons]
      simp [phraseOutside value, listed, ih]
    | assign name value => simp [phraseOutside value, ih]
    | eval value => simp [phraseOutside value, ih]

def IsSequence (word : List TokenKind) : Prop :=
  ∃ nesting body statements, Text nesting body statements ∧ word = body ++ [.endOfInput]

def ended (tokens : List Token) : List Token :=
  if tokens.getLast?.any (·.kind.isEnd) then tokens
  else
    let stop := (tokens.getLast?.map (·.span.stop)).getD 0
    tokens ++ [⟨.endOfInput, ⟨stop, stop⟩⟩]

theorem endedSplit (tokens : List Token) :
    ∃ ending later, ended tokens = sentence tokens ++ ending :: later ∧ ending.kind = .endOfInput ∧
      ending.span.start = stopPosition tokens := by
  cases found : tokens.find? (·.kind.isEnd) with
  | some ending =>
    obtain ⟨isEnd, before, later, rfl, early⟩ := List.find?_eq_some_iff_append.mp found
    have ends := isEndIff.mp isEnd
    have plain : ∀ t ∈ before, t.kind ≠ .endOfInput := by
      intro t mem same
      simpa [isEndIff.mpr same] using early t mem
    rw [sentenceBefore plain ends, stopBefore plain ends, ended]
    split
    · exact ⟨ending, later, rfl, ends, rfl⟩
    · exact ⟨ending, _, List.append_assoc .., ends, rfl⟩
  | none =>
    have all := List.find?_eq_none.mp found
    have words : sentence tokens = tokens :=
      List.takeWhile_eq_self_iff.mpr fun t mem => by simpa using all t mem
    rw [words, stopPosition, found, ended, if_neg]
    · exact ⟨_, [], rfl, rfl, rfl⟩
    · intro last
      cases final : tokens.getLast? with
      | none => simp [final] at last
      | some t => exact all t (List.mem_of_getLast? final) (by simpa [final] using last)

theorem sequenceThrough {word more : List TokenKind} {kind : TokenKind}
    (sequence : IsSequence (word ++ kind :: more)) :
    (kind = .endOfInput ∧ ∃ nesting statements, Text nesting word statements) ∨
      (kind ≠ .endOfInput ∧ ∃ rest nesting statements, Text nesting (word ++ kind :: rest) statements) := by
  obtain ⟨nesting, body, statements, text, split⟩ := sequence
  rcases List.eq_nil_or_concat more with rfl | ⟨rest, last, rfl⟩
  · obtain ⟨rfl, same⟩ := List.append_inj' split rfl
    exact .inl ⟨by simpa using same, nesting, statements, text⟩
  · rw [List.concat_eq_append, ← List.cons_append, ← List.append_assoc] at split
    obtain ⟨rfl, -⟩ := List.append_inj' split rfl
    refine .inr ⟨?_, rest, nesting, statements, text⟩
    rintro rfl
    exact textNoEnd text (by simp)

theorem textReadThrough {nesting : Nat} {input : List Token} {statements : List Statement}
    (text : Text nesting (kinds input) statements) (stop : Nat) (read : List Statement)
    (wanted : Expectation) (rest : List Token) :
    Reader.statements stop read input ≠ .error (Reader.unexpected stop wanted rest) := by
  intro failed
  have capped := Reader.textRead text stop read rfl
  by_cases fits : nesting < nestingLimit ∧ ∀ s ∈ statements, s.expr.height ≤ heightLimit
  · cases failed.symm.trans (capped.fit fits)
  · obtain ⟨limit, place, -, deep⟩ := capped.unfit fits
    have same := Except.error.inj (failed.symm.trans deep)
    cases rest <;> cases same

theorem unexpectedEarliest {tokens : List Token} {expected : Expectation} {found : TokenKind}
    {position : Nat} (failed : Program.ofTokens tokens = .error (.unexpected expected found position)) :
    ∃ before t after, ended tokens = before ++ t :: after ∧ (∀ u ∈ before, u.kind ≠ .endOfInput) ∧
      found = t.kind ∧ position = t.span.start ∧ (∃ more, IsSequence (kinds before ++ more)) ∧
      ∀ more, ¬ IsSequence (kinds before ++ t.kind :: more) := by
  have running := sentencePlain tokens
  obtain ⟨ending, later, whole, isEnd, place⟩ := endedSplit tokens
  rcases bindError failed with failed | ⟨_, _, done⟩
  · obtain ⟨before, behind, wanted, split, ⟨more, nesting, statements, text, -⟩, stuck⟩ :=
      Reader.statementsBlocked failed
    have here := stuck behind rfl []
    rw [← split, failed] at here
    have dead (other : List Token) (alike : Alike behind other) (nesting : Nat)
        (statements : List Statement) : ¬ Text nesting (kinds (before ++ other)) statements :=
      fun text => textReadThrough text _ _ _ _ (stuck other alike [])
    have viable : ∃ more, IsSequence (kinds before ++ more) :=
      ⟨more ++ [.endOfInput], nesting, _, statements, text, by rw [List.append_assoc]⟩
    rw [split] at running whole
    have early : ∀ u ∈ before, u.kind ≠ .endOfInput :=
      fun u mem => running u (List.mem_append_left _ mem)
    cases behind with
    | nil =>
      cases here
      refine ⟨before, ending, later, by rw [whole, List.append_nil], early, isEnd.symm, place.symm,
        viable, fun more sequence => ?_⟩
      rcases sequenceThrough sequence with ⟨-, nesting, statements, text⟩ | ⟨other, -⟩
      · exact dead [] rfl nesting statements (by rwa [List.append_nil])
      · exact other isEnd
    | cons t tail =>
      cases here
      refine ⟨before, t, tail ++ ending :: later, by rw [whole, List.append_assoc]; rfl, early, rfl, rfl,
        viable, fun more sequence => ?_⟩
      rcases sequenceThrough sequence with ⟨isEnd, -⟩ | ⟨-, rest, nesting, statements, text⟩
      · exact running t (by simp) isEnd
      · refine dead (t :: rest.map fun kind => ⟨kind, ⟨0, 0⟩⟩) rfl nesting statements ?_
        simpa [kinds, Function.comp_def] using text
  · cases done

/-- The tokens of `x = (1 + f(2,` and a line end. -/
def brokenCall : List Token :=
  [⟨.identifier "x", ⟨0, 1⟩⟩, ⟨.assign, ⟨2, 3⟩⟩, ⟨.leftParen, ⟨4, 5⟩⟩, ⟨.number (.int 1), ⟨5, 6⟩⟩,
    ⟨.operator .add, ⟨7, 8⟩⟩, ⟨.identifier "f", ⟨9, 10⟩⟩, ⟨.leftParen, ⟨10, 11⟩⟩,
    ⟨.number (.int 2), ⟨11, 12⟩⟩, ⟨.comma, ⟨12, 13⟩⟩, ⟨.newline, ⟨13, 14⟩⟩]

theorem unexpectedEarliestCall :
    Program.ofTokens brokenCall = .error (.unexpected .expression .newline 13) ∧
      ∃ before t after, ended brokenCall = before ++ t :: after ∧
        (∀ u ∈ before, u.kind ≠ .endOfInput) ∧ .newline = t.kind ∧ 13 = t.span.start ∧
        (∃ more, IsSequence (kinds before ++ more)) ∧
        ∀ more, ¬ IsSequence (kinds before ++ t.kind :: more) := by
  have failed : fault (Program.ofTokens brokenCall) = some (.unexpected .expression .newline 13) := by
    decide +kernel
  exact ⟨faultSome.mp failed, unexpectedEarliest (faultSome.mp failed)⟩

end CalcLang
