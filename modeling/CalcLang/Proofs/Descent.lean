import CalcLang.Proofs.Basic
import CalcLang.Tree.Grammar
import CalcLang.Tree.OfTokens

/-! What the readers accept: the tokens that a reader takes from its input derive, in the
grammar, the tree that it returns. Behind a reader of expressions no parenthesis is left
over. -/
namespace CalcLang

open Grammar

def kinds (tokens : List Token) : List TokenKind := tokens.map Token.kind

@[simp] theorem kindsNil : kinds [] = [] := rfl

@[simp] theorem kindsCons (t : Token) (rest : List Token) :
    kinds (t :: rest) = t.kind :: kinds rest := rfl

@[simp] theorem kindsAppend (left right : List Token) :
    kinds (left ++ right) = kinds left ++ kinds right := List.map_append

def Closed (rest : List Token) : Prop := (kinds rest).head? ≠ some .leftParen

/-- The tokens between `input` and `rest` derive the tree `m`, which is not too tall, inside
fewer than `room` parentheses and argument lists. -/
structure Derives (l : Level) (room : Nat) (input : List Token) (m : Measured)
    (rest : List Token) : Prop where
  low : m.height ≤ heightLimit
  derived : ∃ taken nesting, input = taken ++ rest ∧ nesting < room ∧
    Phrase l nesting (kinds taken) m.expr

theorem Derives.loosen {l : Level} {room : Nat} {input rest : List Token} {m : Measured}
    (tight : Derives l.tighter room input m rest) : Derives l room input m rest := by
  obtain ⟨low, taken, nesting, split, fits, phrase⟩ := tight
  exact ⟨low, taken, nesting, split, fits, .loosen phrase⟩

namespace Reader

def joins (l : Level) (op : Operator) : Bool := decide (level op = l)

def phrase (stop room : Nat) : Level → Reader Measured
  | .primary => primary stop (nested stop room)
  | .call => operand stop (nested stop room)
  | .power => leftAssoc (joins .power) (operand stop (nested stop room))
  | .product =>
    leftAssoc (joins .product) (leftAssoc (joins .power) (operand stop (nested stop room)))
  | .sum =>
    leftAssoc (joins .sum) (leftAssoc (joins .product)
      (leftAssoc (joins .power) (operand stop (nested stop room))))

theorem nestedPhrase (stop room : Nat) : nested stop (room + 1) = phrase stop room .sum := by
  have power : isPower = joins .power := funext fun op => by cases op <;> rfl
  have multiplicative : isMultiplicative = joins .product := funext fun op => by cases op <;> rfl
  have additive : isAdditive = joins .sum := funext fun op => by cases op <;> rfl
  rw [nested, power, multiplicative, additive]
  rfl

def Sound (l : Level) (room : Nat) (reader : Reader Measured) : Prop :=
  ∀ input r, reader input = .ok r →
    Derives l room input r.value r.rest ∧ (l ≠ .primary → Closed r.rest)

theorem withinOk {position : Nat} {m value : Measured} (done : within position m = .ok value) :
    value = m ∧ m.height ≤ heightLimit := by
  unfold within at done
  split at done
  · cases done
  · cases done
    exact ⟨rfl, by omega⟩

theorem expectOk {stop : Nat} {kind : TokenKind} {expected : Expectation} {input : List Token}
    {r : Parsed Unit input} (done : expect stop kind expected input = .ok r) :
    ∃ t, t.kind = kind ∧ input = t :: r.rest := by
  cases input with
  | nil => cases done
  | cons t rest =>
    simp only [expect] at done
    split at done
    · next same =>
      cases done
      exact ⟨t, same, rfl⟩
    · cases done

theorem moreElementsSound {α : Type} {stop : Nat} {element : Reader α}
    (spells : List TokenKind → α → Prop) (tail : List TokenKind → List α → Prop)
    (sound : ∀ input r, element input = .ok r →
      ∃ taken, input = taken ++ r.rest ∧ spells (kinds taken) r.value)
    (closing : tail [.rightParen] [])
    (comma : ∀ word a rest more, spells word a → tail rest more → tail (.comma :: (word ++ rest)) (a :: more))
    {input : List Token} {read r : Parsed (List α) input} (done : moreElements stop element read = .ok r) :
    ∃ taken more, read.rest = taken ++ r.rest ∧ r.value = read.value.reverse ++ more ∧
      tail (kinds taken) more := by
  fun_induction moreElements stop element read generalizing r with
  | case1 read span rest ahead ih =>
    obtain ⟨e, readElement, done⟩ := bindOk done
    obtain ⟨first, split, spelled⟩ := sound rest e readElement
    obtain ⟨taken, more, behind, values, further⟩ := ih e done
    refine ⟨⟨.comma, span⟩ :: (first ++ taken), e.value :: more, ?_, by simpa using values, ?_⟩
    · simp only [ahead, List.cons_append, List.append_assoc, ← behind, ← split]
    · simpa using comma _ _ _ _ spelled further
  | case2 read span rest ahead =>
    cases done
    exact ⟨[⟨.rightParen, span⟩], [], ahead, by simp, closing⟩
  | case3 => cases done

section expressions

variable {stop room : Nat} {inner : Reader Measured}

theorem primarySound (innerSound : Sound .sum room inner) :
    Sound .primary (room + 1) (primary stop inner) := by
  intro input r done
  refine ⟨?_, fun outer => absurd rfl outer⟩
  unfold primary at done
  split at done
  · next value span rest =>
    cases done
    exact ⟨Nat.zero_le _, [⟨.number value, span⟩], 0, rfl, Nat.succ_pos room, .number value⟩
  · next name span rest =>
    cases done
    exact ⟨Nat.zero_le _, [⟨.identifier name, span⟩], 0, rfl, Nat.succ_pos room, .name name⟩
  · next span rest =>
    obtain ⟨e, readInner, done⟩ := bindOk done
    obtain ⟨closing, readClosing, done⟩ := bindOk done
    obtain ⟨⟨low, taken, nesting, split, fits, phrase⟩, -⟩ := innerSound rest e readInner
    obtain ⟨t, isClosing, behind⟩ := expectOk readClosing
    cases done
    refine ⟨low, ⟨.leftParen, span⟩ :: (taken ++ [t]), nesting + 1, ?_, by omega, ?_⟩
    · simp only [List.cons_append, List.append_assoc, List.nil_append, ← behind, ← split]
    · simpa [isClosing] using Phrase.group phrase
  · cases done

def Further (room : Nat) (tail : List TokenKind) (more : List Expr) : Prop :=
  (more = [] ∧ tail = [.rightParen]) ∨ ∃ deeper list, deeper ≤ room ∧ more ≠ [] ∧
    Arguments deeper list more ∧ tail = .comma :: (list ++ [.rightParen])

theorem Further.join {nesting : Nat} {word tail : List TokenKind} {e : Expr} {more : List Expr}
    (first : Phrase .sum nesting word e) (fits : nesting < room) (further : Further room tail more) :
    ∃ deeper list, deeper ≤ room ∧ Arguments deeper list (e :: more) ∧
      word ++ tail = list ++ [.rightParen] := by
  obtain ⟨rfl, rfl⟩ | ⟨deeper, list, deep, some, others, rfl⟩ := further
  · exact ⟨nesting + 1, word, fits, .last first, rfl⟩
  · obtain ⟨next, more, rfl⟩ := List.exists_cons_of_ne_nil some
    refine ⟨max (nesting + 1) deeper, word ++ .comma :: list, by omega, .more first others, ?_⟩
    simp only [List.append_assoc, List.cons_append]

theorem spellsPhrase (innerSound : Sound .sum room inner) (input : List Token)
    (r : Parsed Measured input) (done : inner input = .ok r) : ∃ taken, input = taken ++ r.rest ∧
      ∃ nesting, nesting < room ∧ Phrase .sum nesting (kinds taken) r.value.expr := by
  obtain ⟨⟨-, taken, nesting, split, fits, phrase⟩, -⟩ := innerSound input r done
  exact ⟨taken, split, nesting, fits, phrase⟩

theorem furtherComma {word tail : List TokenKind} {m : Measured} {more : List Measured}
    (first : ∃ nesting, nesting < room ∧ Phrase .sum nesting word m.expr)
    (further : Further room tail (more.map Measured.expr)) :
    Further room (.comma :: (word ++ tail)) ((m :: more).map Measured.expr) := by
  obtain ⟨nesting, fits, phrase⟩ := first
  obtain ⟨deeper, list, deep, derivation, same⟩ := further.join phrase fits
  rw [same]
  exact .inr ⟨deeper, list, deep, by simp, derivation, rfl⟩

theorem argumentsSound (innerSound : Sound .sum room inner) {input : List Token}
    {r : Parsed (List Measured) input} (done : arguments stop inner input = .ok r) :
    ∃ taken deeper list, input = taken ++ r.rest ∧ deeper ≤ room ∧
      Arguments deeper list (r.value.map Measured.expr) ∧
      kinds taken = list ++ [.rightParen] := by
  unfold arguments at done
  split at done
  · next span rest =>
    cases done
    exact ⟨[⟨.rightParen, span⟩], 0, [], rfl, Nat.zero_le _, .none, rfl⟩
  · obtain ⟨e, readInner, done⟩ := bindOk done
    obtain ⟨⟨low, first, nesting, split, fits, phrase⟩, -⟩ := innerSound input e readInner
    obtain ⟨taken, more, behind, values, further⟩ := moreElementsSound
      (fun word m => ∃ nesting, nesting < room ∧ Phrase .sum nesting word m.expr)
      (fun word more => Further room word (more.map Measured.expr)) (spellsPhrase innerSound)
      (.inl ⟨rfl, rfl⟩) (fun _ _ _ _ => furtherComma) done
    obtain ⟨deeper, list, deep, derivation, word⟩ := further.join phrase fits
    refine ⟨first ++ taken, deeper, list, ?_, deep, ?_, by simp [word]⟩
    · rw [List.append_assoc, ← behind]
      exact split
    · simpa [values] using derivation

theorem callsSound (innerSound : Sound .sum room inner) {input : List Token}
    {read r : Parsed Measured input} (start : Derives .call (room + 1) input read.value read.rest)
    (done : calls stop inner read = .ok r) :
    Derives .call (room + 1) input r.value r.rest ∧ Closed r.rest := by
  fun_induction calls stop inner read generalizing r with
  | case1 read span rest ahead ih =>
    obtain ⟨args, readArgs, done⟩ := bindOk done
    obtain ⟨value, grown, done⟩ := bindOk done
    refine ih args value ?_ done
    obtain ⟨rfl, low⟩ := withinOk grown
    obtain ⟨taken, deeper, list, split, deep, derivation, word⟩ :=
      argumentsSound innerSound readArgs
    obtain ⟨-, before, nesting, whole, fits, phrase⟩ := start
    refine ⟨low, before ++ ⟨.leftParen, span⟩ :: taken, max nesting deeper, ?_, by omega, ?_⟩
    · simp only [List.append_assoc, List.cons_append, ← split, ← ahead]
      exact whole
    · simpa [word, Measured.call] using Phrase.call phrase derivation
  | case2 read other =>
    cases done
    refine ⟨start, fun opening => ?_⟩
    cases ahead : read.rest with
    | nil => simp [ahead] at opening
    | cons t rest =>
      simp only [ahead, kindsCons, List.head?_cons, Option.some.injEq] at opening
      exact other t.span rest (by rw [ahead, ← opening])

theorem operandSound (innerSound : Sound .sum room inner) :
    Sound .call (room + 1) (operand stop inner) := by
  intro input r done
  obtain ⟨first, readFirst, done⟩ := bindOk done
  obtain ⟨start, -⟩ := primarySound innerSound input first readFirst
  obtain ⟨derived, closed⟩ := callsSound innerSound (.loosen start) done
  exact ⟨derived, fun _ => closed⟩

theorem operationsSound {l : Level} {tighter : Reader Measured} (tight : Sound l.tighter room tighter)
    (loop : l.tighter ≠ .primary) {input : List Token} {read r : Parsed Measured input}
    (start : Derives l room input read.value read.rest) (closed : Closed read.rest)
    (done : operations (joins l) tighter read = .ok r) :
    Derives l room input r.value r.rest ∧ Closed r.rest := by
  fun_induction operations (joins l) tighter read generalizing r with
  | case1 read op span rest ahead joined ih =>
    obtain ⟨right, readRight, done⟩ := bindOk done
    obtain ⟨value, grown, done⟩ := bindOk done
    obtain ⟨⟨-, more, deeper, split, deep, tail⟩, ends⟩ := tight rest right readRight
    refine ih right value ?_ (ends loop) done
    obtain ⟨rfl, low⟩ := withinOk grown
    obtain ⟨-, taken, nesting, whole, fits, head⟩ := start
    obtain rfl : level op = l := of_decide_eq_true joined
    refine ⟨low, taken ++ ⟨.operator op, span⟩ :: more, max nesting deeper, ?_, by omega, ?_⟩
    · simp only [List.append_assoc, List.cons_append, ← split, ← ahead]
      exact whole
    · simpa [Measured.binary] using Phrase.binary head tail
  | case2 read =>
    cases done
    exact ⟨start, closed⟩
  | case3 read =>
    cases done
    exact ⟨start, closed⟩

theorem leftAssocSound {l : Level} {tighter : Reader Measured} (loop : l.tighter ≠ .primary)
    (tight : Sound l.tighter room tighter) : Sound l room (leftAssoc (joins l) tighter) := by
  intro input r done
  obtain ⟨first, readFirst, done⟩ := bindOk done
  obtain ⟨start, closed⟩ := tight input first readFirst
  obtain ⟨derived, ends⟩ := operationsSound tight loop (.loosen start) (closed loop) done
  exact ⟨derived, fun _ => ends⟩

theorem nestedSound (stop room : Nat) : Sound .sum room (nested stop room) := by
  induction room with
  | zero =>
    intro input r done
    cases done
  | succ room ih =>
    have power : Sound .power (room + 1) (phrase stop room .power) :=
      leftAssocSound (by decide) (operandSound ih)
    have product : Sound .product (room + 1) (phrase stop room .product) :=
      leftAssocSound (by decide) power
    rw [nestedPhrase]
    exact leftAssocSound (by decide) product

end expressions

theorem expressionSound {stop room : Nat} {input : List Token} {r : Parsed Expr input}
    (done : expression stop room input = .ok r) :
    ∃ taken nesting, input = taken ++ r.rest ∧ nesting < room ∧
      Phrase .sum nesting (kinds taken) r.value ∧ r.value.height ≤ heightLimit ∧
      Closed r.rest := by
  obtain ⟨e, readNested, done⟩ := bindOk done
  obtain ⟨⟨low, taken, nesting, split, fits, phrase⟩, closed⟩ :=
    nestedSound stop room input e readNested
  cases done
  exact ⟨taken, nesting, split, fits, phrase, e.value.heightEq ▸ low, closed (by decide)⟩

theorem identifierOk {stop : Nat} {input : List Token} {r : Parsed String input}
    (done : identifier stop input = .ok r) : ∃ span, input = ⟨.identifier r.value, span⟩ :: r.rest := by
  unfold identifier at done
  split at done
  · next name span rest =>
    cases done
    exact ⟨span, rfl⟩
  · cases done

theorem spellsName {stop : Nat} (input : List Token) (r : Parsed String input)
    (done : identifier stop input = .ok r) :
    ∃ taken, input = taken ++ r.rest ∧ kinds taken = [.identifier r.value] := by
  obtain ⟨place, split⟩ := identifierOk done
  exact ⟨[⟨.identifier r.value, place⟩], split, rfl⟩

theorem namesCons (name : String) (more : List String) :
    names (name :: more) = .identifier name :: more.flatMap fun n => [.comma, .identifier n] := by
  induction more generalizing name with
  | nil => rfl
  | cons next more ih => simp only [names, ih, List.flatMap_cons, List.cons_append, List.nil_append]

theorem parametersSound {stop : Nat} {input : List Token} {r : Parsed (List String) input}
    (done : parameters stop input = .ok r) :
    ∃ taken, input = taken ++ r.rest ∧ kinds taken = names r.value ++ [.rightParen] := by
  unfold parameters at done
  split at done
  · next name span rest =>
    obtain ⟨taken, more, behind, values, word⟩ := moreElementsSound
      (fun word name => word = [.identifier name])
      (fun word more => word = (more.flatMap fun n => [.comma, .identifier n]) ++ [.rightParen])
      spellsName rfl (by rintro _ _ _ _ rfl rfl; rfl) done
    refine ⟨⟨.identifier name, span⟩ :: taken, congrArg _ behind, ?_⟩
    rw [values, kindsCons, word]
    exact (congrArg (· ++ [TokenKind.rightParen]) (namesCons name more)).symm
  · next span rest =>
    cases done
    exact ⟨[⟨.rightParen, span⟩], rfl, rfl⟩
  · cases done

theorem definitionSound {stop room : Nat} {input : List Token} {r : Parsed Statement input}
    (done : definition stop (expression stop room) input = .ok r) :
    ∃ taken nesting, input = taken ++ r.rest ∧ nesting < room ∧
      Clause nesting (.function :: kinds taken) r.value ∧ r.value.expr.height ≤ heightLimit ∧
      Closed r.rest := by
  obtain ⟨name, readName, done⟩ := bindOk done
  obtain ⟨opening, readOpening, done⟩ := bindOk done
  obtain ⟨params, readParams, done⟩ := bindOk done
  obtain ⟨equals, readEquals, done⟩ := bindOk done
  obtain ⟨body, readBody, done⟩ := bindOk done
  obtain ⟨place, behindName⟩ := identifierOk readName
  obtain ⟨left, isLeft, behindLeft⟩ := expectOk readOpening
  obtain ⟨list, behindList, word⟩ := parametersSound readParams
  obtain ⟨sign, isSign, behindSign⟩ := expectOk readEquals
  obtain ⟨taken, nesting, behindBody, fits, phrase, low, closed⟩ := expressionSound readBody
  cases done
  refine ⟨⟨.identifier name.value, place⟩ :: left :: (list ++ sign :: taken), nesting, ?_, fits, ?_,
    low, closed⟩
  · simp only [List.cons_append, List.append_assoc, ← behindBody, ← behindSign, ← behindList,
      ← behindLeft, ← behindName]
  · simpa [isLeft, isSign, word] using Clause.define name.value params.value phrase

theorem statementSound {stop room : Nat} {input : List Token} {r : Parsed Statement input}
    (done : statement stop (expression stop room) input = .ok r) :
    ∃ taken nesting, input = taken ++ r.rest ∧ nesting < room ∧
      Clause nesting (kinds taken) r.value ∧ r.value.expr.height ≤ heightLimit ∧
      Closed r.rest := by
  unfold statement at done
  split at done
  · next span rest =>
    obtain ⟨s, readDefinition, done⟩ := bindOk done
    obtain ⟨taken, nesting, split, fits, clause, low, closed⟩ := definitionSound readDefinition
    cases done
    exact ⟨⟨.function, span⟩ :: taken, nesting, congrArg _ split, fits, clause, low, closed⟩
  · next name place span rest =>
    obtain ⟨e, readExpression, done⟩ := bindOk done
    obtain ⟨taken, nesting, split, fits, phrase, low, closed⟩ := expressionSound readExpression
    cases done
    refine ⟨⟨.identifier name, place⟩ :: ⟨.assign, span⟩ :: taken, nesting, ?_, fits,
      .assign name phrase, low, closed⟩
    rw [List.cons_append, List.cons_append, ← split]
  · obtain ⟨e, readExpression, done⟩ := bindOk done
    obtain ⟨taken, nesting, split, fits, phrase, low, closed⟩ := expressionSound readExpression
    cases done
    exact ⟨taken, nesting, split, fits, .eval phrase, low, closed⟩

theorem statementsSound {stop : Nat} {read : List Statement} {input : List Token}
    {all : List Statement} (done : statements stop read input = .ok all) :
    ∃ nesting more, all = read.reverse ++ more ∧ nesting < nestingLimit ∧
      Text nesting (kinds input) more ∧ ∀ s ∈ more, s.expr.height ≤ heightLimit := by
  fun_induction statements stop read input generalizing all with
  | case1 read =>
    cases done
    exact ⟨0, [], by simp, by decide, .nil, by simp⟩
  | case2 read span rest ih =>
    obtain ⟨nesting, more, split, fits, text, low⟩ := ih done
    exact ⟨nesting, more, split, fits, .newline text, low⟩
  | case3 read t rest _ ih =>
    obtain ⟨s, readStatement, done⟩ := bindOk done
    obtain ⟨taken, nesting, split, fits, clause, low, closed⟩ := statementSound readStatement
    obtain ⟨deeper, more, values, deep, text, lower⟩ := ih s done
    refine ⟨max nesting deeper, s.value :: more, by simpa using values, by omega, ?_, ?_⟩
    · have word : kinds (t :: rest) = kinds taken ++ kinds s.rest :=
        (congrArg kinds split).trans (kindsAppend taken s.rest)
      rw [word]
      exact .clause clause closed text
    · simpa using ⟨low, lower⟩

end Reader
end CalcLang
