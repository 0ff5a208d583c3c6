import CalcLang.Proofs.Descent

/-! What the grammar derives is read: a text of the grammar is read as the program that it
derives, or fails at one of the two caps on depth. With the soundness of the readers this
makes the grammar exactly the accepted language, and unambiguous. -/
namespace CalcLang

open Grammar

namespace Measured

def of (e : Expr) : Measured := ⟨e, e.height, rfl⟩

theorem eqOf (m : Measured) : m = of m.expr := by
  obtain ⟨e, height, rfl⟩ := m
  rfl

theorem binaryOf (op : Operator) (left right : Expr) :
    (of left).binary op (of right) = of (.binary op left right) := eqOf _

theorem callOf (callee : Expr) (args : List Expr) :
    (of callee).call (args.map of) = of (.call callee args) := by
  have same : (args.map of).map expr = args := by simp [Function.comp_def, of]
  exact (eqOf _).trans (congrArg (fun list => of (.call callee list)) same)

end Measured

def TooDeep {α : Type} (outcome : Except SyntaxError α) : Prop :=
  ∃ limit position, (limit = nestingLimit ∨ limit = heightLimit) ∧
    outcome = .error (.tooDeep limit position)

/-- Within the caps the outcome is `result`, and beyond them it is a cap. -/
structure Capped {α : Type} (fits : Prop) (outcome result : Except SyntaxError α) : Prop where
  fit : fits → outcome = result
  unfit : ¬ fits → TooDeep outcome

namespace Capped

variable {α β : Type} {part whole : Prop}

theorem same {outcome result : Except SyntaxError α} (always : whole) (equal : outcome = result) :
    Capped whole outcome result := ⟨fun _ => equal, fun beyond => absurd always beyond⟩

theorem sequence {m m' : Except SyntaxError α} (first : Capped part m m')
    (k : α → Except SyntaxError β) : Capped part (m >>= k) (m' >>= k) := by
  refine ⟨fun fits => by rw [first.fit fits], fun beyond => ?_⟩
  obtain ⟨limit, position, known, failed⟩ := first.unfit beyond
  exact ⟨limit, position, known, by rw [failed]; rfl⟩

theorem trans {outcome middle result : Except SyntaxError α} (first : Capped part outcome middle)
    (needs : whole → part) (after : part → Capped whole middle result) :
    Capped whole outcome result := by
  by_cases fits : part
  · rw [first.fit fits]
    exact after fits
  · exact ⟨fun all => absurd (needs all) fits, fun _ => first.unfit fits⟩

theorem bind {m : Except SyntaxError α} {a : α} {k : α → Except SyntaxError β}
    {result : Except SyntaxError β} (first : Capped part m (.ok a)) (needs : whole → part)
    (after : part → Capped whole (k a) result) : Capped whole (m >>= k) result :=
  (first.sequence k).trans needs after

end Capped

namespace Reader

theorem withinCapped (position : Nat) (e : Expr) :
    Capped (e.height ≤ heightLimit) (within position (.of e)) (.ok (.of e)) := by
  refine ⟨fun low => if_neg (Nat.not_lt.mpr low), fun tall => ?_⟩
  exact ⟨heightLimit, position, .inr rfl, if_pos (Nat.lt_of_not_le tall)⟩

def resume (stop room : Nat) {input : List Token} :
    Level → Parsed Measured input → Except SyntaxError (Parsed Measured input)
  | .primary => .ok
  | .call => calls stop (nested stop room)
  | .power => operations (joins .power) (phrase stop room .call)
  | .product => operations (joins .product) (phrase stop room .power)
  | .sum => operations (joins .sum) (phrase stop room .product)

theorem phraseResume (stop room : Nat) (l : Level) (input : List Token) :
    phrase stop room l input = (phrase stop room l.tighter input >>= resume stop room l) := by
  cases l with
  | primary =>
    cases read : phrase stop room .primary input with
    | error e => simp only [Level.tighter, read]; rfl
    | ok r => simp only [Level.tighter, read]; rfl
  | _ => rfl

theorem resumeOperations (stop room : Nat) {input : List Token} (op : Operator)
    (read : Parsed Measured input) :
    resume stop room (level op) read =
      operations (joins (level op)) (phrase stop room (level op).tighter) read := by
  cases op <;> rfl

theorem operationsJoin {l : Level} {tighter : Reader Measured} {input rest : List Token}
    {left : Measured} {op : Operator} {span : Span} (joined : level op = l)
    (short : (⟨.operator op, span⟩ :: rest : List Token).length < input.length) :
    operations (joins l) tighter (⟨left, ⟨.operator op, span⟩ :: rest, short⟩ : Parsed _ input) =
      (do
        let right ← tighter rest
        let value ← within span.start (left.binary op right.value)
        operations (joins l) tighter ⟨value, right.rest, by
          have := right.shorter; simp only [List.length_cons] at short; omega⟩) := by
  rw [operations]
  simp [joins, joined]

theorem callsOpen {stop : Nat} {inner : Reader Measured} {input rest : List Token}
    {callee : Measured} {span : Span}
    (short : (⟨.leftParen, span⟩ :: rest : List Token).length < input.length) :
    calls stop inner (⟨callee, ⟨.leftParen, span⟩ :: rest, short⟩ : Parsed _ input) =
      (do
        let args ← arguments stop inner rest
        let value ← within span.start (callee.call args.value)
        calls stop inner ⟨value, args.rest, by
          have := args.shorter; simp only [List.length_cons] at short; omega⟩) := by
  rw [calls]

theorem operationsDone {l : Level} {tighter : Reader Measured} {input : List Token}
    {read : Parsed Measured input}
    (other : ∀ op span rest, read.rest = ⟨.operator op, span⟩ :: rest → level op ≠ l) :
    operations (joins l) tighter read = .ok read := by
  rw [operations]
  split
  · next op span rest ahead => exact if_neg (by simpa [joins] using other op span rest ahead)
  · rfl

theorem callsDone {stop : Nat} {inner : Reader Measured} {input : List Token}
    {read : Parsed Measured input} (other : ∀ span rest, read.rest ≠ ⟨.leftParen, span⟩ :: rest) :
    calls stop inner read = .ok read := by
  rw [calls]
  split
  · next span rest ahead => exact absurd ahead (other span rest)
  · rfl

def elementsFrom {α : Type} (stop : Nat) (element : Reader α) {outer : List Token} (read : List α)
    (input : List Token) (inside : input.length ≤ outer.length) :
    Except SyntaxError (Parsed (List α) outer) := do
  let e ← element input
  moreElements stop element ⟨e.value :: read, e.rest, Nat.lt_of_lt_of_le e.shorter inside⟩

section Elements

variable {α : Type} {stop : Nat} {element : Reader α} {outer rest : List Token} {read : List α}
  {span : Span}

theorem moreElementsComma (short : (⟨.comma, span⟩ :: rest : List Token).length < outer.length) :
    moreElements stop element (⟨read, ⟨.comma, span⟩ :: rest, short⟩ : Parsed _ outer) =
      elementsFrom stop element read rest (by simp only [List.length_cons] at short; omega) := by
  rw [moreElements]
  rfl

theorem moreElementsClosing (short : rest.length < outer.length)
    (other : ∀ span more, rest ≠ ⟨.comma, span⟩ :: more) :
    moreElements stop element (⟨read, rest, short⟩ : Parsed _ outer) =
      (expect stop .rightParen .rightParen rest >>= fun closing =>
        .ok ⟨read.reverse, closing.rest, Nat.lt_trans closing.shorter short⟩) := by
  rw [moreElements.eq_def]
  cases rest with
  | nil => rfl
  | cons t more =>
    obtain ⟨kind, span⟩ := t
    cases kind with
    | comma => exact absurd rfl (other span more)
    | _ => rfl

theorem moreElementsClose (short : (⟨.rightParen, span⟩ :: rest : List Token).length < outer.length) :
    moreElements stop element (⟨read, ⟨.rightParen, span⟩ :: rest, short⟩ : Parsed _ outer) =
      .ok ⟨read.reverse, rest, by simp only [List.length_cons] at short; omega⟩ :=
  moreElementsClosing short (by simp)

end Elements

end Reader

/-! How the words of the grammar begin and what may stand behind them. -/

def TokenKind.opens : TokenKind → Bool
  | number _ => true
  | identifier _ => true
  | leftParen => true
  | _ => false

theorem phraseOpens {l : Level} {nesting : Nat} {word : List TokenKind} {e : Expr}
    (phrase : Phrase l nesting word e) : ∃ kind more, word = kind :: more ∧ kind.opens = true := by
  refine @Phrase.rec (fun _ _ word _ _ => ∃ kind more, word = kind :: more ∧ kind.opens = true)
    (fun _ _ _ _ => True) ?number ?name ?group ?call ?binary ?loosen ?none ?last ?more
    l nesting word e phrase
  case number => exact fun value => ⟨_, _, rfl, rfl⟩
  case name => exact fun name => ⟨_, _, rfl, rfl⟩
  case group => exact fun _ _ => ⟨_, _, rfl, rfl⟩
  case call =>
    rintro _ _ _ _ _ _ - - ⟨kind, more, rfl, opens⟩ -
    exact ⟨kind, _, rfl, opens⟩
  case binary =>
    rintro _ _ _ _ _ _ _ - - ⟨kind, more, rfl, opens⟩ -
    exact ⟨kind, _, rfl, opens⟩
  case loosen => exact fun _ opens => opens
  case none => trivial
  case last => exact fun _ _ => trivial
  case more => exact fun _ _ _ _ => trivial

theorem phraseOutside {l : Level} {nesting : Nat} {word : List TokenKind} {e : Expr}
    (phrase : Phrase l nesting word e) : .assign ∉ word ∧ .endOfInput ∉ word := by
  refine @Phrase.rec (fun _ _ word _ _ => .assign ∉ word ∧ .endOfInput ∉ word)
    (fun _ list _ _ => .assign ∉ list ∧ .endOfInput ∉ list)
    ?number ?name ?group ?call ?binary ?loosen ?none ?last ?more l nesting word e phrase
  case number => simp
  case name => simp
  case group => intro _ _ _ _ inner; simp [inner]
  case call => intro _ _ _ _ _ _ _ _ head tail; simp [head, tail]
  case binary => intro _ _ _ _ _ _ _ _ _ head tail; simp [head, tail]
  case loosen => exact fun _ tight => tight
  case none => simp
  case last => exact fun _ only => only
  case more => intro _ _ _ _ _ _ _ _ _ first others; simp [first, others]

def Grammar.Level.continues : Level → TokenKind → Bool
  | primary, _ => false
  | _, .leftParen => true
  | l, .operator op => l = .sum || l = .product && level op ≠ .sum || l = level op
  | _, _ => false

def Ends (l : Level) (rest : List Token) : Prop := ∀ t ∈ rest.head?, l.continues t.kind = false

theorem Ends.tighter {l : Level} {rest : List Token} (ends : Ends l rest) :
    Ends l.tighter rest := by
  intro t first
  have stays := ends t first
  cases l <;> cases kind : t.kind with
  | operator op => cases op <;> simp_all [Level.continues, Level.tighter, level]
  | _ => simp_all [Level.continues, Level.tighter]

theorem endsOperator (op : Operator) (span : Span) (rest : List Token) :
    Ends (level op).tighter (⟨.operator op, span⟩ :: rest) := by
  rintro t ⟨⟩
  cases op <;> rfl

theorem continuesOwn (op : Operator) : (level op).continues (.operator op) = true := by
  cases op <;> rfl

theorem endsComma (l : Level) (span : Span) (rest : List Token) :
    Ends l (⟨.comma, span⟩ :: rest) := by
  rintro t ⟨⟩
  cases l <;> rfl

theorem endsRightParen (l : Level) (span : Span) (rest : List Token) :
    Ends l (⟨.rightParen, span⟩ :: rest) := by
  rintro t ⟨⟩
  cases l <;> rfl

theorem kindsHead {taken : List Token} {kind : TokenKind} {word : List TokenKind}
    (spelled : kinds taken = kind :: word) :
    ∃ span rest, taken = ⟨kind, span⟩ :: rest ∧ kinds rest = word := by
  obtain ⟨⟨_, span⟩, rest, rfl, rfl, tail⟩ := List.map_eq_cons_iff.mp spelled
  exact ⟨span, rest, rfl, tail⟩

theorem kindsOne {taken : List Token} {kind : TokenKind} (spelled : kinds taken = [kind]) :
    ∃ span, taken = [⟨kind, span⟩] := by
  obtain ⟨span, rest, rfl, last⟩ := kindsHead spelled
  obtain rfl : rest = [] := List.map_eq_nil_iff.mp last
  exact ⟨span, rfl⟩

theorem kindsSplit {taken : List Token} {before after : List TokenKind} {kind : TokenKind}
    (spelled : kinds taken = before ++ kind :: after) :
    ∃ first span rest, taken = first ++ ⟨kind, span⟩ :: rest ∧ kinds first = before ∧
      kinds rest = after := by
  obtain ⟨first, others, rfl, same, tail⟩ := List.map_eq_append_iff.mp spelled
  obtain ⟨span, rest, rfl, last⟩ := kindsHead tail
  exact ⟨first, span, rest, rfl, same, last⟩

theorem kindsLast {taken : List Token} {before : List TokenKind} {kind : TokenKind}
    (spelled : kinds taken = before ++ [kind]) :
    ∃ first span, taken = first ++ [⟨kind, span⟩] ∧ kinds first = before := by
  obtain ⟨first, others, rfl, same, tail⟩ := List.map_eq_append_iff.mp spelled
  obtain ⟨span, rfl⟩ := kindsOne tail
  exact ⟨first, span, rfl, same⟩

theorem phraseShort {l : Level} {nesting : Nat} {taken : List Token} {e : Expr}
    (phrase : Phrase l nesting (kinds taken) e) (rest : List Token) :
    rest.length < (taken ++ rest).length := by
  obtain ⟨kind, more, word, -⟩ := phraseOpens phrase
  obtain ⟨first, others, rfl, -, -⟩ := List.map_eq_cons_iff.mp word
  simp only [List.cons_append, List.length_cons, List.length_append]
  omega

namespace Reader

theorem resumeEnds {stop room : Nat} {l : Level} {input : List Token} {read : Parsed Measured input}
    (ends : Ends l read.rest) : resume stop room l read = .ok read := by
  have foreign : ∀ op span rest, read.rest = ⟨.operator op, span⟩ :: rest → level op ≠ l := by
    rintro op span rest ahead rfl
    have own := continuesOwn op
    rw [ends ⟨.operator op, span⟩ (by rw [ahead]; rfl)] at own
    cases own
  cases l with
  | primary => rfl
  | call => exact callsDone fun span rest ahead => by simp [Ends, ahead, Level.continues] at ends
  | _ => exact operationsDone foreign

/-- What is read from tokens that begin with a phrase: the phrase, and then whatever of its
level follows. -/
def ReadsPhrase (l : Level) (nesting : Nat) (word : List TokenKind) (e : Expr) : Prop :=
  ∀ (stop room : Nat) {input taken rest : List Token}, input = taken ++ rest →
    kinds taken = word → Ends l.tighter rest → ∀ short : rest.length < input.length,
    Capped (nesting ≤ room ∧ e.height ≤ heightLimit) (phrase stop room l input)
      (resume stop room l ⟨.of e, rest, short⟩)

def ReadsArguments (deeper : Nat) (list : List TokenKind) (args : List Expr) : Prop :=
  ∀ (stop room : Nat) {outer input taken rest : List Token} (span : Span) (read : List Measured),
    input = taken ++ ⟨.rightParen, span⟩ :: rest → kinds taken = list → args ≠ [] →
    ∀ (inside : input.length ≤ outer.length) (short : rest.length < outer.length),
    Capped (deeper ≤ room ∧ Expr.tallest args ≤ heightLimit)
      (elementsFrom stop (nested stop room) read input inside)
      (.ok (⟨read.reverse ++ args.map .of, rest, short⟩ : Parsed _ outer))

theorem ReadsPhrase.nested {nesting : Nat} {word : List TokenKind} {e : Expr}
    (reads : ReadsPhrase .sum nesting word e) (stop room : Nat) {input taken rest : List Token}
    (split : input = taken ++ rest) (spelled : kinds taken = word) (ends : Ends .sum rest)
    (short : rest.length < input.length) :
    Capped (nesting < room ∧ e.height ≤ heightLimit) (nested stop room input)
      (.ok ⟨.of e, rest, short⟩) := by
  cases room with
  | zero => exact ⟨fun fits => absurd fits.1 (Nat.not_lt_zero _), fun _ => ⟨_, _, .inl rfl, rfl⟩⟩
  | succ room =>
    have capped := reads stop room split spelled ends.tighter short
    rw [resumeEnds ends] at capped
    rw [nestedPhrase]
    exact ⟨fun fits => capped.fit ⟨Nat.le_of_lt_succ fits.1, fits.2⟩,
      fun beyond => capped.unfit fun fits => beyond ⟨Nat.lt_succ_of_le fits.1, fits.2⟩⟩

theorem readsGroup {nesting : Nat} {word : List TokenKind} {e : Expr}
    (phrase : Phrase .sum nesting word e) (reads : ReadsPhrase .sum nesting word e) :
    ReadsPhrase .primary (nesting + 1) (.leftParen :: (word ++ [.rightParen])) e := by
  intro stop room input taken rest split spelled _ short
  obtain ⟨opening, others, rfl, tail⟩ := kindsHead spelled
  obtain ⟨inside, closing, rfl, rfl⟩ := kindsLast tail
  rw [List.cons_append, List.append_assoc, List.cons_append, List.nil_append] at split
  subst split
  have read := reads.nested stop room rfl rfl (endsRightParen .sum closing rest)
    (phraseShort phrase (⟨.rightParen, closing⟩ :: rest))
  exact read.bind (fun fits => ⟨fits.1, fits.2⟩) fun fits => .same ⟨fits.1, fits.2⟩ rfl

theorem readsBinary {op : Operator} {nesting deeper : Nat} {word more : List TokenKind}
    {left right : Expr} (head : Phrase (level op) nesting word left)
    (tail : Phrase (level op).tighter deeper more right)
    (headReads : ReadsPhrase (level op) nesting word left)
    (tailReads : ReadsPhrase (level op).tighter deeper more right) :
    ReadsPhrase (level op) (max nesting deeper) (word ++ .operator op :: more)
      (.binary op left right) := by
  intro stop room input taken rest split spelled ends short
  obtain ⟨first, span, second, rfl, rfl, rfl⟩ := kindsSplit spelled
  rw [List.append_assoc, List.cons_append] at split
  subst split
  have leftRead := headReads stop room rfl rfl (endsOperator op span (second ++ rest))
    (phraseShort head _)
  have rightRead := tailReads stop room rfl rfl ends.tighter (phraseShort tail rest)
  rw [resumeEnds ends] at rightRead
  simp only [Expr.height]
  refine leftRead.trans (fun fits => ⟨by omega, by omega⟩) fun _ => ?_
  -- the loop of this level stands before its operator with the left operand read
  rw [resumeOperations, operationsJoin rfl]
  refine rightRead.bind (fun fits => ⟨by omega, by omega⟩) fun _ => ?_
  rw [resumeOperations]
  simp only [Measured.binaryOf]
  refine (withinCapped span.start (.binary op left right)).bind ?_ fun low => ?_
  · simpa only [Expr.height] using fun fits => fits.2
  · simp only [Expr.height] at low
    exact .same ⟨by omega, low⟩ rfl

theorem readsLast {nesting : Nat} {word : List TokenKind} {e : Expr}
    (phrase : Phrase .sum nesting word e) (reads : ReadsPhrase .sum nesting word e) :
    ReadsArguments (nesting + 1) word [e] := by
  intro stop room outer input taken rest span read split spelled _ inside short
  subst split spelled
  have first := reads.nested stop room rfl rfl (endsRightParen .sum span rest)
    (phraseShort phrase (⟨.rightParen, span⟩ :: rest))
  simp only [Expr.tallest, Nat.max_zero]
  refine first.bind (fun fits => ⟨fits.1, fits.2⟩) fun fits => ?_
  rw [moreElementsClose]
  exact .same ⟨fits.1, fits.2⟩ (by simp)

theorem readsMore {nesting deeper : Nat} {word list : List TokenKind} {e next : Expr}
    {args : List Expr} (phrase : Phrase .sum nesting word e)
    (reads : ReadsPhrase .sum nesting word e)
    (others : ReadsArguments deeper list (next :: args)) :
    ReadsArguments (max (nesting + 1) deeper) (word ++ .comma :: list) (e :: next :: args) := by
  intro stop room outer input taken rest span read split spelled _ inside short
  obtain ⟨first, comma, second, rfl, rfl, rfl⟩ := kindsSplit spelled
  rw [List.append_assoc, List.cons_append] at split
  subst split
  have firstRead := reads.nested stop room rfl rfl
    (endsComma .sum comma (second ++ ⟨.rightParen, span⟩ :: rest)) (phraseShort phrase _)
  rw [Expr.tallest]
  refine firstRead.bind (fun fits => ⟨by omega, by omega⟩) fun fits => ?_
  rw [moreElementsComma]
  have behind : (second ++ ⟨.rightParen, span⟩ :: rest).length ≤ outer.length := by
    simp only [List.length_append, List.length_cons] at inside ⊢
    omega
  have othersRead :=
    others stop room span (.of e :: read) rfl rfl (List.cons_ne_nil next args) behind short
  refine othersRead.trans (fun fits => ⟨by omega, by omega⟩) fun deep => ?_
  exact .same ⟨by omega, by omega⟩ (by simp)

theorem argumentsOpen {stop : Nat} {inner : Reader Measured} {input : List Token}
    (opens : (kinds input).head? ≠ some .rightParen) :
    arguments stop inner input = elementsFrom stop inner [] input (Nat.le_refl _) := by
  unfold arguments
  split
  · exact absurd rfl opens
  · rfl

theorem argumentsHead {deeper : Nat} {list : List TokenKind} {args : List Expr}
    (tail : Arguments deeper list args) : (args = [] ∧ list = [] ∧ deeper = 0) ∨
      (args ≠ [] ∧ ∃ kind more, list = kind :: more ∧ kind.opens = true) := by
  cases tail with
  | none => exact .inl ⟨rfl, rfl, rfl⟩
  | last only => exact .inr ⟨by simp, phraseOpens only⟩
  | more first others =>
    obtain ⟨kind, more, rfl, opens⟩ := phraseOpens first
    exact .inr ⟨by simp, kind, _, rfl, opens⟩

theorem ReadsArguments.arguments {deeper : Nat} {list : List TokenKind} {args : List Expr}
    (tail : Arguments deeper list args) (reads : ReadsArguments deeper list args)
    (stop room : Nat) {taken rest : List Token} {span : Span} (spelled : kinds taken = list)
    (short : rest.length < (taken ++ ⟨.rightParen, span⟩ :: rest).length) :
    Capped (deeper ≤ room ∧ Expr.tallest args ≤ heightLimit)
      (arguments stop (nested stop room) (taken ++ ⟨.rightParen, span⟩ :: rest))
      (.ok ⟨args.map .of, rest, short⟩) := by
  obtain ⟨rfl, rfl, rfl⟩ | ⟨some, kind, more, rfl, opens⟩ := argumentsHead tail
  · obtain rfl : taken = [] := List.map_eq_nil_iff.mp spelled
    exact .same ⟨Nat.zero_le _, Nat.zero_le _⟩ rfl
  · rw [argumentsOpen]
    · exact reads stop room span [] rfl spelled some (Nat.le_refl _) short
    · rw [kindsAppend, spelled, List.cons_append, List.head?_cons]
      rintro ⟨⟩
      cases opens

theorem readsCall {nesting deeper : Nat} {word list : List TokenKind} {callee : Expr}
    {args : List Expr} (head : Phrase .call nesting word callee) (tail : Arguments deeper list args)
    (headReads : ReadsPhrase .call nesting word callee)
    (tailReads : ReadsArguments deeper list args) :
    ReadsPhrase .call (max nesting deeper) (word ++ .leftParen :: (list ++ [.rightParen]))
      (.call callee args) := by
  intro stop room input taken rest split spelled ends short
  obtain ⟨first, opening, others, rfl, rfl, behind⟩ := kindsSplit spelled
  obtain ⟨second, closing, rfl, same⟩ := kindsLast behind
  simp only [List.append_assoc, List.cons_append, List.nil_append] at split
  subst split
  have headRead := headReads stop room rfl rfl (fun _ _ => rfl)
    (phraseShort head (⟨.leftParen, opening⟩ :: (second ++ ⟨.rightParen, closing⟩ :: rest)))
  have inside : rest.length < (second ++ ⟨.rightParen, closing⟩ :: rest).length := by
    simp only [List.length_append, List.length_cons]
    omega
  have tailRead := tailReads.arguments tail stop room same inside
  simp only [Expr.height]
  refine headRead.trans (fun fits => ⟨by omega, by omega⟩) fun _ => ?_
  rw [resume, callsOpen]
  refine tailRead.bind (fun fits => ⟨by omega, by omega⟩) fun _ => ?_
  simp only [Measured.callOf]
  refine (withinCapped opening.start (.call callee args)).bind ?_ fun low => ?_
  · simpa only [Expr.height] using fun fits => fits.2
  · simp only [Expr.height] at low
    exact .same ⟨by omega, low⟩ rfl

theorem readsLoosen {l : Level} {nesting : Nat} {word : List TokenKind} {e : Expr}
    (tight : ReadsPhrase l.tighter nesting word e) : ReadsPhrase l nesting word e := by
  intro stop room input taken rest split spelled ends short
  have read := tight stop room split spelled ends.tighter short
  -- nothing behind the phrase belongs to the tighter level, so its loop has ended
  rw [resumeEnds ends] at read
  rw [phraseResume]
  exact read.bind id fun fits => .same fits rfl

theorem phraseRead {l : Level} {nesting : Nat} {word : List TokenKind} {e : Expr}
    (phrase : Phrase l nesting word e) : ReadsPhrase l nesting word e := by
  -- phrases and argument lists derive each other, hence the recursor with two motives
  refine @Phrase.rec (fun l nesting word e _ => ReadsPhrase l nesting word e)
    (fun deeper list args _ => ReadsArguments deeper list args)
    ?number ?name ?group ?call ?binary ?loosen ?none ?last ?more l nesting word e phrase
  case number =>
    intro value stop room input taken rest split spelled _ short
    obtain ⟨span, rfl⟩ := kindsOne spelled
    subst split
    exact .same ⟨Nat.zero_le _, Nat.zero_le _⟩ rfl
  case name =>
    intro name stop room input taken rest split spelled _ short
    obtain ⟨span, rfl⟩ := kindsOne spelled
    subst split
    exact .same ⟨Nat.zero_le _, Nat.zero_le _⟩ rfl
  case group => exact fun phrase reads => readsGroup phrase reads
  case call => exact fun head tail headReads tailReads => readsCall head tail headReads tailReads
  case binary => exact fun head tail headReads tailReads => readsBinary head tail headReads tailReads
  case loosen => exact fun _ tight => readsLoosen tight
  case none => exact fun _ _ _ _ _ _ _ _ _ _ some => absurd rfl some
  case last => exact fun phrase reads => readsLast phrase reads
  case more => exact fun phrase _ reads others => readsMore phrase reads others

end Reader
end CalcLang
