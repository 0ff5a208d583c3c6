import CalcLang.Proofs.Language

/-! Where the readers of expressions fail. A reader that meets a token it cannot use has taken the
beginning of a phrase, and it does the same whatever stands behind that token. -/
namespace CalcLang

open Grammar

def Alike (rest other : List Token) : Prop := (kinds other).head? = (kinds rest).head?

namespace Alike

variable {rest other : List Token}

theorem append (alike : Alike rest other) (taken : List Token) :
    Alike (taken ++ rest) (taken ++ other) := by
  cases taken with
  | nil => exact alike
  | cons t taken => rfl

theorem extend {tail word : List Token} (alike : Alike tail other) (split : rest = word ++ tail) :
    Alike rest (word ++ other) := by
  rw [split]
  exact alike.append word

theorem ends {l : Level} (alike : Alike rest other) (ends : Ends l rest) : Ends l other := by
  intro t first
  obtain ⟨tail, rfl⟩ := List.head?_eq_some_iff.mp first
  cases rest with
  | nil => cases alike
  | cons u rest =>
    have same : t.kind = u.kind := Option.some.inj alike
    rw [same]
    exact ends u rfl

theorem starts {kind : TokenKind} {span : Span} (alike : Alike rest (⟨kind, span⟩ :: other)) :
    ∃ place tail, rest = ⟨kind, place⟩ :: tail := by
  cases rest with
  | nil => cases alike
  | cons t tail =>
    obtain rfl : kind = t.kind := Option.some.inj alike
    exact ⟨t.span, tail, rfl⟩

end Alike

def Begins (language : List TokenKind → Prop) (word : List TokenKind) : Prop :=
  ∃ more, language (word ++ more)

def Followed (first second : List TokenKind → Prop) (word : List TokenKind) : Prop :=
  ∃ left right, first left ∧ second right ∧ word = left ++ right

def IsPhrase (l : Level) (word : List TokenKind) : Prop := ∃ nesting e, Phrase l nesting word e

def IsList (word : List TokenKind) : Prop :=
  ∃ deeper list args, Arguments deeper list args ∧ word = list ++ [.rightParen]

theorem isPhraseLoosen {l : Level} {word : List TokenKind} (tight : IsPhrase l.tighter word) :
    IsPhrase l word := by
  obtain ⟨nesting, e, phrase⟩ := tight
  exact ⟨nesting, e, .loosen phrase⟩

def fault {α : Type} : Except SyntaxError α → Option SyntaxError
  | .error e => some e
  | .ok _ => none

theorem faultSome {α : Type} {m : Except SyntaxError α} {e : SyntaxError} :
    fault m = some e ↔ m = .error e := by
  cases m <;> simp [fault]

theorem faultOk {α β : Type} (m : Except SyntaxError α) (f : α → β) :
    fault (m >>= fun a => .ok (f a)) = fault m := by
  cases m <;> rfl

theorem Parsed.shortAgain {α : Type} {input word : List Token} (r : Parsed α input)
    (split : input = word ++ r.rest) (other : List Token) : other.length < (word ++ other).length := by
  have shorter := r.shorter
  have lengths := congrArg List.length split
  rw [List.length_append] at lengths ⊢
  omega

namespace Reader

def fails {α : Type} (reader : Reader α) (input : List Token) : Option SyntaxError :=
  fault (reader input)

/-- Reading fails at a token that cannot stand there: the tokens before it are a beginning, and what
stands behind it makes no difference. -/
def Blocked (stop : Nat) (begins : List TokenKind → Prop) (faults : List Token → Option SyntaxError)
    (input : List Token) : Prop :=
  ∃ taken behind wanted, input = taken ++ behind ∧ begins (kinds taken) ∧
    ∀ other, Alike behind other → faults (taken ++ other) = some (unexpected stop wanted other)

def Blocks (stop : Nat) (begins : List TokenKind → Prop) (faults : List Token → Option SyntaxError) :
    Prop :=
  ∀ input expected found position,
    faults input = some (.unexpected expected found position) → Blocked stop begins faults input

/-- What is taken is a word of the language, and the same is taken in front of other tokens that begin
alike. -/
def Local {α : Type} (language : List TokenKind → Prop) (reader : Reader α) : Prop :=
  ∀ input r, reader input = .ok r → ∃ taken, input = taken ++ r.rest ∧ language (kinds taken) ∧
    ∀ other, Alike r.rest other → ∀ short, reader (taken ++ other) = .ok ⟨r.value, other, short⟩

def chain {α : Type} (first : Reader α) (later : List Token → Option SyntaxError)
    (input : List Token) : Option SyntaxError :=
  match first input with
  | .error e => some e
  | .ok r => later r.rest

theorem faultChain {α β : Type} {first : Reader α} {input : List Token}
    {next : Parsed α input → Except SyntaxError β} {later : List Token → Option SyntaxError}
    (same : ∀ r, fault (next r) = later r.rest) :
    fault (first input >>= next) = chain first later input := by
  unfold chain
  cases first input with
  | error e => rfl
  | ok r => exact same r

theorem Blocks.mono {stop : Nat} {begins wider : List TokenKind → Prop}
    {faults : List Token → Option SyntaxError} (blocks : Blocks stop begins faults)
    (widen : ∀ word, begins word → wider word) : Blocks stop wider faults := by
  intro input expected found position failed
  obtain ⟨taken, behind, wanted, split, viable, stuck⟩ := blocks input expected found position failed
  exact ⟨taken, behind, wanted, split, widen _ viable, stuck⟩

theorem Blocks.chain {stop : Nat} {α : Type} {first : Reader α}
    {later : List Token → Option SyntaxError} {language next : List TokenKind → Prop}
    (blocks : Blocks stop (Begins language) first.fails) (takes : Local language first)
    (second : Blocks stop (Begins next) later) (some : ∃ word, next word) :
    Blocks stop (Begins (Followed language next)) (chain first later) := by
  intro input expected found position failed
  unfold Reader.chain at failed
  split at failed
  · rename_i e stopped
    obtain ⟨taken, behind, wanted, split, ⟨more, viable⟩, stuck⟩ :=
      blocks input expected found position ((faultSome.mpr stopped).trans failed)
    obtain ⟨word, last⟩ := some
    refine ⟨taken, behind, wanted, split, ⟨more ++ word, _, word, viable, last, by simp⟩, ?_⟩
    intro other alike
    rw [Reader.chain, faultSome.mp (stuck other alike)]
  · rename_i r read
    obtain ⟨word, split, spelled, retaken⟩ := takes input r read
    obtain ⟨taken, behind, wanted, rest, ⟨more, viable⟩, stuck⟩ :=
      second r.rest expected found position failed
    refine ⟨word ++ taken, behind, wanted, by rw [List.append_assoc, ← rest]; exact split, ?_, ?_⟩
    · exact ⟨more, kinds word, _, spelled, viable, by simp⟩
    · intro other alike
      have alikeRest := alike.extend rest
      rw [List.append_assoc, Reader.chain, retaken _ alikeRest (r.shortAgain split _)]
      exact stuck other alike

section Tokens

variable {stop : Nat}

theorem expectLocal (kind : TokenKind) (wanted : Expectation) :
    Local (· = [kind]) (expect stop kind wanted) := by
  intro input r done
  obtain ⟨t, same, split⟩ := expectOk done
  refine ⟨[t], split, by simp [same], fun other alike short => ?_⟩
  simp only [List.singleton_append, expect, same, if_true]

theorem expectBlocks (kind : TokenKind) (wanted : Expectation) :
    Blocks stop (Begins (· = [kind])) (fails (expect stop kind wanted)) := by
  intro input expected found position failed
  refine ⟨[], input, wanted, rfl, ⟨[kind], rfl⟩, fun other alike => ?_⟩
  rw [List.nil_append]
  cases other with
  | nil => rfl
  | cons u tail =>
    cases input with
    | nil => cases alike
    | cons t rest =>
      have same : u.kind = t.kind := Option.some.inj alike
      simp only [fails, expect] at failed ⊢
      split at failed
      · cases failed
      · rename_i differs
        rw [if_neg (same ▸ differs)]
        rfl

end Tokens

section Elements

variable {stop : Nat} {α : Type} {element : Reader α} {outer rest : List Token}
  {read : Parsed (List α) outer} {span : Span}

theorem moreElementsStops {e : SyntaxError} (ahead : read.rest = ⟨.comma, span⟩ :: rest)
    (stopped : element rest = .error e) : moreElements stop element read = .error e := by
  obtain ⟨values, _, short⟩ := read
  subst ahead
  rw [moreElementsComma, elementsFrom, stopped]
  rfl

theorem moreElementsGoOn {r : Parsed α rest} (ahead : read.rest = ⟨.comma, span⟩ :: rest)
    (taken : element rest = .ok r) : ∃ next : Parsed (List α) outer, next.rest = r.rest ∧
      moreElements stop element read = moreElements stop element next := by
  obtain ⟨values, _, short⟩ := read
  subst ahead
  rw [moreElementsComma, elementsFrom, taken]
  exact ⟨_, rfl, rfl⟩

theorem moreElementsOther (noComma : ∀ span more, read.rest ≠ ⟨.comma, span⟩ :: more)
    (noClosing : ∀ span more, read.rest ≠ ⟨.rightParen, span⟩ :: more) :
    moreElements stop element read = .error (unexpected stop .rightParen read.rest) := by
  rw [moreElements]
  split
  · next ahead => exact absurd ahead (noComma _ _)
  · next ahead => exact absurd ahead (noClosing _ _)
  · rfl

/-- A loop over elements fails inside the input, and wherever it meets the tokens before the fault it
fails at what stands there, if that begins alike. -/
def ElementsBlocked (stop : Nat) {α : Type} (element : Reader α) (tail : List TokenKind → Prop)
    (input : List Token) : Prop :=
  ∃ taken behind wanted, input = taken ++ behind ∧ Begins tail (kinds taken) ∧
    ∀ other, Alike behind other → ∀ {outer : List Token} (again : Parsed (List α) outer),
      again.rest = taken ++ other →
      moreElements stop element again = .error (unexpected stop wanted other)

variable {language tail : List TokenKind → Prop}

theorem blockedInElement (blocks : Blocks stop (Begins language) element.fails)
    (closing : tail [.rightParen])
    (comma : ∀ word more, language word → tail more → tail (.comma :: (word ++ more)))
    {expected : Expectation} {found : TokenKind} {position : Nat}
    (stopped : element rest = .error (.unexpected expected found position)) :
    ElementsBlocked stop element tail (⟨.comma, span⟩ :: rest) := by
  obtain ⟨taken, behind, wanted, rfl, ⟨more, viable⟩, stuck⟩ :=
    blocks rest _ _ _ (faultSome.mpr stopped)
  refine ⟨⟨.comma, span⟩ :: taken, behind, wanted, rfl, ⟨more ++ [.rightParen], ?_⟩, ?_⟩
  · simpa using comma _ _ viable closing
  · intro other alike outer again ahead
    exact moreElementsStops ahead (faultSome.mp (stuck other alike))

theorem blockedBehindElement (takes : Local language element)
    (comma : ∀ word more, language word → tail more → tail (.comma :: (word ++ more)))
    {r : Parsed α rest} (done : element rest = .ok r)
    (later : ElementsBlocked stop element tail r.rest) :
    ElementsBlocked stop element tail (⟨.comma, span⟩ :: rest) := by
  obtain ⟨word, split, spelled, retaken⟩ := takes rest r done
  obtain ⟨taken, behind, wanted, splitRest, ⟨more, viable⟩, stuck⟩ := later
  refine ⟨⟨.comma, span⟩ :: (word ++ taken), behind, wanted, ?_, ⟨more, ?_⟩, ?_⟩
  · rw [split, splitRest, List.cons_append, List.append_assoc]
  · simpa using comma _ _ spelled viable
  · intro other alike outer again ahead
    rw [List.cons_append, List.append_assoc] at ahead
    have alikeRest := alike.extend splitRest
    obtain ⟨later, behindLater, same⟩ :=
      moreElementsGoOn ahead (retaken _ alikeRest (r.shortAgain split _))
    exact same.trans (stuck other alike later behindLater)

theorem blockedUnclosed (closing : tail [.rightParen]) {input : List Token}
    (noComma : ¬ ∃ span rest, input = ⟨.comma, span⟩ :: rest)
    (noClosing : ¬ ∃ span rest, input = ⟨.rightParen, span⟩ :: rest) :
    ElementsBlocked stop element tail input := by
  refine ⟨[], input, .rightParen, rfl, ⟨[.rightParen], closing⟩, ?_⟩
  intro other alike outer again ahead
  obtain rfl : again.rest = other := ahead
  refine moreElementsOther (fun span more same => ?_) fun span more same => ?_
  · rw [same] at alike
    exact noComma alike.starts
  · rw [same] at alike
    exact noClosing alike.starts

theorem moreElementsBlocked (blocks : Blocks stop (Begins language) element.fails)
    (takes : Local language element) (closing : tail [.rightParen])
    (comma : ∀ word more, language word → tail more → tail (.comma :: (word ++ more)))
    {expected : Expectation} {found : TokenKind} {position : Nat}
    (failed : moreElements stop element read = .error (.unexpected expected found position)) :
    ElementsBlocked stop element tail read.rest := by
  induction length : read.rest.length using Nat.strongRecOn generalizing read with
  | ind n ih =>
    by_cases next : ∃ span rest, read.rest = ⟨.comma, span⟩ :: rest
    · obtain ⟨span, rest, ahead⟩ := next
      rw [ahead]
      cases readElement : element rest with
      | error e =>
        cases (moreElementsStops ahead readElement).symm.trans failed
        exact blockedInElement blocks closing comma readElement
      | ok r =>
        obtain ⟨next, behindElement, same⟩ := moreElementsGoOn ahead readElement
        have shorter : next.rest.length < n := by
          have fewer := r.shorter
          rw [← length, ahead, behindElement, List.length_cons]
          omega
        have later := ih _ shorter (same.symm.trans failed) rfl
        rw [behindElement] at later
        exact blockedBehindElement takes comma readElement later
    · refine blockedUnclosed closing next ?_
      rintro ⟨span, rest, ahead⟩
      obtain ⟨values, _, short⟩ := read
      subst ahead
      cases (moreElementsClose short).symm.trans failed

end Elements

section Endings

variable {stop room : Nat} {l : Level} {input : List Token} {tighter : Reader Measured}

theorem phraseSound (stop room : Nat) (l : Level) : Sound l (room + 1) (phrase stop room l) := by
  have call : Sound .call (room + 1) (phrase stop room .call) := operandSound (nestedSound stop room)
  have power : Sound .power (room + 1) (phrase stop room .power) := leftAssocSound (by decide) call
  have product : Sound .product (room + 1) (phrase stop room .product) :=
    leftAssocSound (by decide) power
  cases l with
  | sum => exact leftAssocSound (by decide) product
  | product => exact product
  | power => exact power
  | call => exact call
  | primary => exact primarySound (nestedSound stop room)

theorem continuesCases {rest : List Token} (tight : Ends l.tighter rest) (more : ¬ Ends l rest) :
    (∃ op span behind, l = level op ∧ rest = ⟨.operator op, span⟩ :: behind) ∨
      l = .call ∧ ∃ span behind, rest = ⟨.leftParen, span⟩ :: behind := by
  cases rest with
  | nil => exact absurd (by rintro t ⟨⟩) more
  | cons t behind =>
    obtain ⟨kind, span⟩ := t
    have stays := tight _ rfl
    have goesOn : l.continues kind = true := by
      by_contra finished
      exact more (by rintro t ⟨⟩; simpa using finished)
    cases kind with
    | operator op =>
      refine .inl ⟨op, span, behind, ?_, rfl⟩
      cases l <;> cases op <;> simp_all [Level.continues, Level.tighter, level]
    | leftParen =>
      refine .inr ⟨?_, span, behind, rfl⟩
      cases l <;> simp_all [Level.continues, Level.tighter]
    | _ => cases l <;> cases goesOn

theorem operationsEnds (loop : l.tighter ≠ .primary)
    (tight : ∀ input r, tighter input = .ok r → Ends l.tighter r.rest)
    {read r : Parsed Measured input} (start : Ends l.tighter read.rest)
    (done : operations (joins l) tighter read = .ok r) : Ends l r.rest := by
  fun_induction operations (joins l) tighter read generalizing r with
  | case1 read op span rest ahead joined ih =>
    obtain ⟨right, readRight, done⟩ := bindOk done
    obtain ⟨value, grown, done⟩ := bindOk done
    exact ih right value (tight rest right readRight) done
  | case2 read op span rest ahead apart =>
    cases done
    by_contra more
    rcases continuesCases start more with ⟨other, place, behind, joined, split⟩ | ⟨rfl, -⟩
    · rw [ahead] at split
      cases split
      exact apart (decide_eq_true joined.symm)
    · exact loop rfl
  | case3 read other =>
    cases done
    by_contra more
    rcases continuesCases start more with ⟨op, span, behind, -, split⟩ | ⟨rfl, -⟩
    · exact other op span behind split
    · exact loop rfl

theorem leftAssocEnds (loop : l.tighter ≠ .primary)
    (tight : ∀ input r, tighter input = .ok r → Ends l.tighter r.rest) {r : Parsed Measured input}
    (done : leftAssoc (joins l) tighter input = .ok r) : Ends l r.rest := by
  obtain ⟨first, readFirst, done⟩ := bindOk done
  exact operationsEnds loop tight (tight input first readFirst) done

theorem phraseEnds (stop room : Nat) (l : Level) :
    ∀ input r, phrase stop room l input = .ok r → Ends l r.rest := by
  have call : ∀ input r, phrase stop room .call input = .ok r → Ends .call r.rest := by
    rintro input r done ⟨kind, span⟩ first
    have closed := (phraseSound stop room .call input r done).2 (by decide)
    obtain ⟨behind, split⟩ := List.head?_eq_some_iff.mp first
    rw [split] at closed
    cases kind with
    | leftParen => exact absurd rfl closed
    | operator op => cases op <;> rfl
    | _ => rfl
  have power : ∀ input r, phrase stop room .power input = .ok r → Ends .power r.rest :=
    fun input r done => leftAssocEnds (by decide) call done
  have product : ∀ input r, phrase stop room .product input = .ok r → Ends .product r.rest :=
    fun input r done => leftAssocEnds (by decide) power done
  cases l with
  | sum => exact fun input r done => leftAssocEnds (by decide) product done
  | product => exact product
  | power => exact power
  | call => exact call
  | primary => exact fun _ _ _ _ _ => rfl

theorem nestedLocal (stop room : Nat) :
    Local (IsPhrase .sum) (nested stop room) := by
  cases room with
  | zero =>
    intro input r done
    cases done
  | succ room =>
    intro input r done
    obtain ⟨⟨low, taken, nesting, split, fits, phrase⟩, -⟩ := nestedSound stop (room + 1) input r done
    refine ⟨taken, split, ⟨nesting, _, phrase⟩, fun other alike short => ?_⟩
    rw [nestedPhrase] at done
    have ends := alike.ends (phraseEnds stop room .sum input r done)
    have read := (phraseRead phrase).nested stop (room + 1) rfl rfl ends short
    rw [← r.value.heightEq] at read
    exact (read.fit ⟨fits, low⟩).trans (by rw [← Measured.eqOf])

end Endings

section Parentheses

variable {stop : Nat} {inner : Reader Measured}

theorem groupBlocks (blocks : Blocks stop (Begins (IsPhrase .sum)) inner.fails)
    (takes : Local (IsPhrase .sum) inner) :
    Blocks stop (fun word => Begins (IsPhrase .primary) (.leftParen :: word))
      (chain inner (fails (expect stop .rightParen .rightParen))) := by
  refine (blocks.chain takes (expectBlocks .rightParen .rightParen) ⟨_, rfl⟩).mono ?_
  rintro word ⟨more, _, _, ⟨nesting, e, phrase⟩, rfl, split⟩
  refine ⟨more, nesting + 1, e, ?_⟩
  rw [List.cons_append, split]
  exact .group phrase

theorem primaryOther {input : List Token} (closed : ∀ kind ∈ (kinds input).head?, kind.opens = false) :
    primary stop inner input = .error (unexpected stop .expression input) := by
  unfold primary
  split
  · cases closed _ rfl
  · cases closed _ rfl
  · cases closed _ rfl
  · rfl

theorem primaryGroup (span : Span) (rest : List Token) :
    fails (primary stop inner) (⟨.leftParen, span⟩ :: rest) =
      chain inner (fails (expect stop .rightParen .rightParen)) rest := by
  rw [fails, primary]
  exact faultChain fun r => faultOk _ _

theorem primaryBlocks (blocks : Blocks stop (Begins (IsPhrase .sum)) inner.fails)
    (takes : Local (IsPhrase .sum) inner) :
    Blocks stop (Begins (IsPhrase .primary)) (fails (primary stop inner)) := by
  intro input expected found position failed
  by_cases opens : ∃ span rest, input = ⟨.leftParen, span⟩ :: rest
  · obtain ⟨span, rest, rfl⟩ := opens
    rw [primaryGroup] at failed
    obtain ⟨taken, behind, wanted, rfl, viable, stuck⟩ := groupBlocks blocks takes _ _ _ _ failed
    refine ⟨⟨.leftParen, span⟩ :: taken, behind, wanted, rfl, viable, fun other alike => ?_⟩
    exact (primaryGroup span _).trans (stuck other alike)
  · have closed : ∀ kind ∈ (kinds input).head?, kind.opens = false := by
      rintro kind first
      obtain ⟨⟨_, span⟩, rest, rfl⟩ : ∃ t rest, input = t :: rest := by
        cases input with
        | nil => cases first
        | cons t rest => exact ⟨t, rest, rfl⟩
      cases first
      rename_i kind
      cases kind with
      | number value => cases failed
      | identifier name => cases failed
      | leftParen => exact absurd ⟨span, rest, rfl⟩ opens
      | _ => rfl
    refine ⟨[], input, .expression, rfl, ⟨[.number (.int 0)], 0, _, .number _⟩, fun other alike => ?_⟩
    refine congrArg fault (primaryOther fun kind first => closed kind ?_)
    exact alike ▸ first

def IsTail (word : List TokenKind) : Prop := ∃ room args, Further room word args

theorem tailJoin {word tail : List TokenKind} (first : IsPhrase .sum word) (further : IsTail tail) :
    ∃ deeper list e args, Arguments deeper list (e :: args) ∧ word ++ tail = list ++ [.rightParen] := by
  obtain ⟨nesting, e, phrase⟩ := first
  obtain ⟨room, args, further⟩ := further
  have wider : Further (max room (nesting + 1)) tail args := by
    obtain last | ⟨deeper, list, deep, some, others⟩ := further
    · exact .inl last
    · exact .inr ⟨deeper, list, by omega, some, others⟩
  obtain ⟨deeper, list, -, derivation, same⟩ := wider.join phrase (by omega)
  exact ⟨deeper, list, e, args, derivation, same⟩

theorem tailClosing : IsTail [.rightParen] := ⟨0, [], .inl ⟨rfl, rfl⟩⟩

theorem tailComma {word tail : List TokenKind} (first : IsPhrase .sum word) (further : IsTail tail) :
    IsTail (.comma :: (word ++ tail)) := by
  obtain ⟨deeper, list, e, args, derivation, same⟩ := tailJoin first further
  rw [same]
  exact ⟨deeper, e :: args, .inr ⟨deeper, list, Nat.le_refl _, by simp, derivation, rfl⟩⟩

theorem tailList {word tail : List TokenKind} (first : IsPhrase .sum word) (further : IsTail tail) :
    IsList (word ++ tail) := by
  obtain ⟨deeper, list, e, args, derivation, same⟩ := tailJoin first further
  exact ⟨deeper, list, e :: args, derivation, same⟩

theorem argumentsBlocks (blocks : Blocks stop (Begins (IsPhrase .sum)) inner.fails)
    (takes : Local (IsPhrase .sum) inner) :
    Blocks stop (Begins IsList) (fails (arguments stop inner)) := by
  intro input expected found position failed
  have opens : (kinds input).head? ≠ some .rightParen := by
    intro closing
    cases input with
    | nil => cases closing
    | cons t rest =>
      obtain ⟨kind, span⟩ := t
      obtain rfl : kind = .rightParen := Option.some.inj closing
      cases failed
  have opensAgain {taken behind other : List Token} (split : input = taken ++ behind)
      (alike : Alike behind other) : (kinds (taken ++ other)).head? ≠ some .rightParen := by
    rw [split] at opens
    exact fun closing => opens ((alike.append taken).symm.trans closing)
  rw [fails, argumentsOpen opens, faultSome] at failed
  rcases bindError failed with failed | ⟨e, readInner, failed⟩
  · obtain ⟨taken, behind, wanted, split, ⟨more, viable⟩, stuck⟩ :=
      blocks input _ _ _ (faultSome.mpr failed)
    refine ⟨taken, behind, wanted, split, ⟨more ++ [.rightParen], ?_⟩, fun other alike => ?_⟩
    · simpa using tailList viable tailClosing
    · rw [fails, argumentsOpen (opensAgain split alike), elementsFrom,
        faultSome.mp (stuck other alike)]
      rfl
  · obtain ⟨word, split, spelled, retaken⟩ := takes input e readInner
    obtain ⟨taken, behind, wanted, splitRest, ⟨more, viable⟩, stuck⟩ :=
      moreElementsBlocked blocks takes tailClosing (fun _ _ => tailComma) failed
    dsimp only at splitRest
    have whole : input = word ++ taken ++ behind := by
      rw [List.append_assoc, ← splitRest]
      exact split
    refine ⟨word ++ taken, behind, wanted, whole, ⟨more, ?_⟩, fun other alike => ?_⟩
    · simpa using tailList spelled viable
    · have alikeRest := alike.extend splitRest
      have opened := opensAgain whole alike
      rw [List.append_assoc] at opened ⊢
      rw [fails, argumentsOpen opened, elementsFrom, retaken _ alikeRest (e.shortAgain split _)]
      exact faultSome.mpr (stuck other alike _ rfl)

end Parentheses

section Levels

variable {stop room : Nat} {l : Level} {expected : Expectation} {found : TokenKind} {position : Nat}

structure Taken (room : Nat) (l : Level) (before : List Token) (e : Expr) : Prop where
  derived : ∃ nesting, nesting ≤ room ∧ Phrase l nesting (kinds before) e
  low : e.height ≤ heightLimit

theorem Taken.resumes {before rest : List Token} {e : Expr} (taken : Taken room l before e)
    (ends : Ends l.tighter rest) (stop : Nat) :
    ∃ short, phrase stop room l (before ++ rest) = resume stop room l ⟨.of e, rest, short⟩ := by
  obtain ⟨⟨nesting, fits, phrase⟩, low⟩ := taken
  have short := phraseShort phrase rest
  exact ⟨short, (phraseRead phrase stop room rfl rfl ends short).fit ⟨fits, low⟩⟩

theorem phraseTaken {input : List Token} {r : Parsed Measured input}
    (done : phrase stop room l input = .ok r) :
    ∃ taken, input = taken ++ r.rest ∧ Taken room l taken r.value.expr := by
  obtain ⟨⟨low, taken, nesting, split, fits, phrase⟩, -⟩ := phraseSound stop room l input r done
  exact ⟨taken, split, ⟨nesting, Nat.le_of_lt_succ fits, phrase⟩, r.value.heightEq ▸ low⟩

theorem withinLow {α : Type} {place : Nat} {m : Measured} {next : Measured → Except SyntaxError α}
    (failed : (within place m >>= next) = .error (.unexpected expected found position)) :
    m.expr.height ≤ heightLimit := by
  rw [← m.heightEq]
  rcases bindError failed with deep | ⟨value, grown, -⟩
  · unfold within at deep
    split at deep
    · cases deep
    · omega
  · exact (withinOk grown).2

theorem partBlocked {α : Type} {part : Reader α} {language : List TokenKind → Prop}
    (blocks : Blocks stop (Begins language) part.fails) {before rest : List Token} {t : Token}
    (stops : ∀ rest e, part rest = .error e → phrase stop room l (before ++ t :: rest) = .error e)
    (viable : ∀ tail, language tail → IsPhrase l (kinds before ++ t.kind :: tail))
    (stopped : part rest = .error (.unexpected expected found position)) :
    Blocked stop (Begins (IsPhrase l)) (fails (phrase stop room l)) (before ++ t :: rest) := by
  obtain ⟨taken, behind, wanted, rfl, ⟨more, tail⟩, stuck⟩ := blocks rest _ _ _ (faultSome.mpr stopped)
  refine ⟨before ++ t :: taken, behind, wanted, by simp, ⟨more, ?_⟩, fun other alike => ?_⟩
  · simpa using viable _ tail
  · rw [List.append_assoc]
    exact faultSome.mpr (stops _ _ (faultSome.mp (stuck other alike)))

section Continuing

variable {op : Operator} {before rest : List Token} {e : Expr}

theorem operatorFails (head : Taken room (level op) before e) (span : Span) {error : SyntaxError}
    (stopped : phrase stop room (level op).tighter rest = .error error) :
    phrase stop room (level op) (before ++ ⟨.operator op, span⟩ :: rest) = .error error := by
  obtain ⟨short, resumed⟩ := head.resumes (endsOperator op span rest) stop
  rw [resumed, resumeOperations, operationsJoin rfl, stopped]
  rfl

theorem operatorTaken (head : Taken room (level op) before e) {span : Span}
    {right : Parsed Measured rest} (read : phrase stop room (level op).tighter rest = .ok right)
    (failed : phrase stop room (level op) (before ++ ⟨.operator op, span⟩ :: rest) =
      .error (.unexpected expected found position)) :
    ∃ more, rest = more ++ right.rest ∧
      Taken room (level op) (before ++ ⟨.operator op, span⟩ :: more) (.binary op e right.value.expr) := by
  obtain ⟨more, split, ⟨deeper, deep, tail⟩, -⟩ := phraseTaken read
  obtain ⟨nesting, fits, phrase⟩ := head.derived
  obtain ⟨short, resumed⟩ := head.resumes (endsOperator op span rest) stop
  rw [resumed, resumeOperations, operationsJoin rfl, read] at failed
  refine ⟨more, split, ⟨max nesting deeper, by omega, ?_⟩, ?_⟩
  · simpa using Phrase.binary phrase tail
  · exact withinLow (show (within span.start _ >>= _) = _ from failed)

theorem callFails (head : Taken room .call before e) (span : Span) {error : SyntaxError}
    (stopped : arguments stop (nested stop room) rest = .error error) :
    phrase stop room .call (before ++ ⟨.leftParen, span⟩ :: rest) = .error error := by
  obtain ⟨short, resumed⟩ := head.resumes (fun _ _ => rfl) stop
  rw [resumed, resume, callsOpen, stopped]
  rfl

theorem callTaken (head : Taken room .call before e) {span : Span}
    {args : Parsed (List Measured) rest} (read : arguments stop (nested stop room) rest = .ok args)
    (failed : phrase stop room .call (before ++ ⟨.leftParen, span⟩ :: rest) =
      .error (.unexpected expected found position)) :
    ∃ more, rest = more ++ args.rest ∧
      Taken room .call (before ++ ⟨.leftParen, span⟩ :: more) (.call e (args.value.map Measured.expr)) := by
  obtain ⟨more, deeper, list, split, deep, tail, word⟩ := argumentsSound (nestedSound stop room) read
  obtain ⟨nesting, fits, phrase⟩ := head.derived
  obtain ⟨short, resumed⟩ := head.resumes (fun _ _ => rfl) stop
  rw [resumed, resume, callsOpen, read] at failed
  refine ⟨more, split, ⟨max nesting deeper, by omega, ?_⟩, ?_⟩
  · simpa [word] using Phrase.call phrase tail
  · exact withinLow (show (within span.start _ >>= _) = _ from failed)

variable (tight : Blocks stop (Begins (IsPhrase l.tighter)) (fails (phrase stop room l.tighter)))
  (lists : Blocks stop (Begins IsList) (fails (arguments stop (nested stop room))))

include tight lists

theorem takenTurn (head : Taken room l before e) (ends : Ends l.tighter rest)
    (failed : phrase stop room l (before ++ rest) = .error (.unexpected expected found position)) :
    Blocked stop (Begins (IsPhrase l)) (fails (phrase stop room l)) (before ++ rest) ∨
      ∃ t more others wider, rest = t :: (more ++ others) ∧ Ends l.tighter others ∧
        Taken room l (before ++ t :: more) wider := by
  obtain ⟨nesting, -, phrase⟩ := head.derived
  by_cases finished : Ends l rest
  · obtain ⟨short, resumed⟩ := head.resumes ends stop
    rw [resumed, resumeEnds finished] at failed
    cases failed
  · rcases continuesCases ends finished with ⟨op, span, tail, rfl, rfl⟩ | ⟨rfl, span, tail, rfl⟩
    · cases read : Reader.phrase stop room (level op).tighter tail with
      | error stopped =>
        cases (operatorFails head span read).symm.trans failed
        refine .inl (partBlocked tight (fun _ _ => operatorFails head span) ?_ read)
        rintro word ⟨deeper, right, tail⟩
        exact ⟨_, _, .binary phrase tail⟩
      | ok right =>
        obtain ⟨more, split, wider⟩ := operatorTaken head read failed
        exact .inr ⟨_, more, _, _, congrArg _ split, phraseEnds stop room _ tail right read, wider⟩
    · cases read : arguments stop (nested stop room) tail with
      | error stopped =>
        cases (callFails head span read).symm.trans failed
        refine .inl (partBlocked lists (fun _ _ => callFails head span) ?_ read)
        rintro word ⟨deeper, list, args, tail, rfl⟩
        exact ⟨_, _, .call phrase tail⟩
      | ok args =>
        obtain ⟨more, split, wider⟩ := callTaken head read failed
        exact .inr ⟨_, more, _, _, congrArg _ split, fun _ _ => rfl, wider⟩

theorem takenBlocked (head : Taken room l before e) (ends : Ends l.tighter rest)
    (failed : phrase stop room l (before ++ rest) = .error (.unexpected expected found position)) :
    Blocked stop (Begins (IsPhrase l)) (fails (phrase stop room l)) (before ++ rest) := by
  induction length : rest.length using Nat.strongRecOn generalizing before rest e with
  | ind n ih =>
    rcases takenTurn tight lists head ends failed with done | ⟨t, more, others, wider, rfl, behind, head⟩
    · exact done
    · have same : before ++ t :: (more ++ others) = before ++ t :: more ++ others := by simp
      rw [same] at failed ⊢
      refine ih others.length ?_ head behind failed rfl
      rw [← length, List.length_cons, List.length_append]
      omega

theorem looserBlocks : Blocks stop (Begins (IsPhrase l)) (fails (phrase stop room l)) := by
  intro input expected found position failed
  rw [fails, faultSome] at failed
  cases read : phrase stop room l.tighter input with
  | error stopped =>
    rw [phraseResume, read] at failed
    cases failed
    obtain ⟨taken, behind, wanted, split, ⟨more, viable⟩, stuck⟩ :=
      tight input _ _ _ (faultSome.mpr read)
    refine ⟨taken, behind, wanted, split, ⟨more, isPhraseLoosen viable⟩, fun other alike => ?_⟩
    rw [fails, phraseResume, faultSome.mp (stuck other alike)]
    rfl
  | ok r =>
    obtain ⟨taken, split, ⟨nesting, fits, phrase⟩, low⟩ := phraseTaken read
    have ends := phraseEnds stop room l.tighter input r read
    generalize r.value.expr = e at phrase low
    generalize r.rest = rest at split ends
    subst split
    exact takenBlocked tight lists ⟨⟨nesting, fits, .loosen phrase⟩, low⟩ ends failed

end Continuing

theorem nestedBlocks (stop room : Nat) :
    Blocks stop (Begins (IsPhrase .sum)) (fails (nested stop room)) := by
  induction room with
  | zero =>
    intro input expected found position failed
    cases failed
  | succ room ih =>
    have takes := nestedLocal stop room
    have lists := argumentsBlocks ih takes
    have primary : Blocks stop (Begins (IsPhrase .primary)) (fails (phrase stop room .primary)) :=
      primaryBlocks ih takes
    have call : Blocks stop (Begins (IsPhrase .call)) (fails (phrase stop room .call)) :=
      looserBlocks primary lists
    have power : Blocks stop (Begins (IsPhrase .power)) (fails (phrase stop room .power)) :=
      looserBlocks call lists
    have product : Blocks stop (Begins (IsPhrase .product)) (fails (phrase stop room .product)) :=
      looserBlocks power lists
    rw [nestedPhrase]
    exact looserBlocks product lists

end Levels
end Reader
end CalcLang
