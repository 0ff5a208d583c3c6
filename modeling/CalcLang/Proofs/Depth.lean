import CalcLang.Proofs.Language

/-! Which texts the caps on depth refuse. How deep the expressions of a text stand is seen from
its tokens alone: from the parentheses that are open where an expression can start. In a text of
the grammar this agrees with the nesting of its derivation, since every statement closes the
parentheses that it opens. -/
namespace CalcLang

open Grammar

/-- Wherever an expression can start, fewer than `room` parentheses are open. The parenthesis of
an argument list counts as a start and stands no deeper than the callee before it; so do the names
in the head of a definition, with at most one parenthesis open. -/
def Shallow (room : Nat) (word : List TokenKind) : Prop :=
  ∀ before kind after, word = before ++ kind :: after → kind.opens = true →
    before.count .leftParen < room + before.count .rightParen

section Tokens

variable {room : Nat} {kind : TokenKind} {rest : List TokenKind}

theorem shallowNil (room : Nat) : Shallow room [] := by
  intro before kind after split
  simp at split

theorem shallowCons : Shallow room (kind :: rest) ↔ (kind.opens = true → 0 < room) ∧
    ∀ before next after, rest = before ++ next :: after → next.opens = true →
      (kind :: before).count .leftParen < room + (kind :: before).count .rightParen := by
  constructor
  · intro shallow
    refine ⟨fun opens => ?_, fun before next after split opens => ?_⟩
    · simpa using shallow [] kind rest rfl opens
    · exact shallow (kind :: before) next after (congrArg (kind :: ·) split) opens
  · intro parts before next after split opens
    cases before with
    | nil =>
      cases split
      simpa using parts.1 opens
    | cons first before =>
      cases split
      exact parts.2 before next after rfl opens

theorem shallowAtom (opens : kind.opens = true) (plain : kind ≠ .leftParen) :
    Shallow room (kind :: rest) ↔ 0 < room ∧ Shallow room rest := by
  have other : kind ≠ .rightParen := by
    intro same
    rw [same] at opens
    cases opens
  rw [shallowCons]
  simp only [opens, List.count_cons_of_ne plain, List.count_cons_of_ne other, true_implies]
  rfl

theorem shallowSign (closed : kind.opens = false) (plain : kind ≠ .rightParen) :
    Shallow room (kind :: rest) ↔ Shallow room rest := by
  have other : kind ≠ .leftParen := by
    intro same
    rw [same] at closed
    cases closed
  rw [shallowCons]
  simp only [closed, List.count_cons_of_ne plain, List.count_cons_of_ne other, Bool.false_eq_true,
    false_implies, true_and]
  rfl

theorem shallowOpening : Shallow (room + 1) (.leftParen :: rest) ↔ Shallow room rest := by
  have other : TokenKind.leftParen ≠ .rightParen := by simp
  rw [shallowCons]
  simp only [List.count_cons_self, List.count_cons_of_ne other, Nat.succ_pos, implies_true, true_and,
    Nat.add_right_comm room 1, Nat.add_lt_add_iff_right]
  rfl

theorem shallowClosing : Shallow room (.rightParen :: rest) ↔ Shallow (room + 1) rest := by
  have other : TokenKind.rightParen ≠ .leftParen := by simp
  have closed : TokenKind.rightParen.opens = false := rfl
  rw [shallowCons]
  simp only [List.count_cons_self, List.count_cons_of_ne other, closed, Bool.false_eq_true,
    false_implies, true_and, ← Nat.add_assoc, Nat.add_right_comm room _ 1]
  rfl

theorem shallowRoom (shallow : Shallow room (.leftParen :: rest)) : 0 < room := by
  simpa using shallow [] .leftParen rest rfl rfl

theorem shallowEnclosed {word : List TokenKind} {fits : Prop}
    (inner : ∀ rest, Shallow room (word ++ rest) ↔ fits ∧ Shallow room rest) (rest : List TokenKind) :
    Shallow (room + 1) (.leftParen :: (word ++ .rightParen :: rest)) ↔
      fits ∧ Shallow (room + 1) rest := by
  rw [shallowOpening, inner, shallowClosing]

end Tokens

theorem phraseShallow {l : Level} {nesting : Nat} {word : List TokenKind} {e : Expr}
    (phrase : Phrase l nesting word e) (room : Nat) (rest : List TokenKind) :
    Shallow room (word ++ rest) ↔ nesting < room ∧ Shallow room rest := by
  -- inside an argument list the room is one less than at its callee, hence `≤` for the list
  refine @Phrase.rec
    (fun _ nesting word _ _ => ∀ room rest,
      Shallow room (word ++ rest) ↔ nesting < room ∧ Shallow room rest)
    (fun deeper list _ _ => ∀ room rest,
      Shallow room (list ++ rest) ↔ deeper ≤ room ∧ Shallow room rest)
    ?number ?name ?group ?call ?binary ?loosen ?none ?last ?more l nesting word e phrase room rest
  case number => exact fun value room rest => shallowAtom rfl (by simp)
  case name => exact fun name room rest => shallowAtom rfl (by simp)
  case group =>
    intro nesting word e phrase inner room rest
    rw [List.cons_append, List.append_assoc, List.singleton_append]
    cases room with
    | zero => exact ⟨fun shallow => absurd (shallowRoom shallow) (by omega), fun fits => by omega⟩
    | succ room => rw [shallowEnclosed (inner room), Nat.add_lt_add_iff_right]
  case call =>
    intro nesting word callee deeper list args _ _ head tail room rest
    rw [List.append_assoc, List.cons_append, List.append_assoc, List.singleton_append, head]
    cases room with
    | zero => exact ⟨fun fits => by omega, fun fits => by omega⟩
    | succ room =>
      rw [shallowEnclosed (tail room), ← and_assoc, Nat.max_lt, Nat.lt_succ_iff (m := deeper)]
  case binary =>
    intro op nesting word left deeper more right _ _ head tail room rest
    rw [List.append_assoc, List.cons_append, head, shallowSign rfl (by simp), tail, ← and_assoc,
      Nat.max_lt]
  case loosen => exact fun _ tight => tight
  case none => exact fun room rest => ⟨fun shallow => ⟨Nat.zero_le room, shallow⟩, fun fits => fits.2⟩
  case last => exact fun _ only => only
  case more =>
    intro nesting word e deeper list next args _ _ first others room rest
    rw [List.append_assoc, List.cons_append, first, shallowSign rfl (by simp), others, ← and_assoc,
      Nat.max_le]
    rfl

theorem namesShallow {room : Nat} (params : List String) (positive : 0 < room) (rest : List TokenKind) :
    Shallow room (names params ++ rest) ↔ True ∧ Shallow room rest := by
  have atom (name : String) (rest : List TokenKind) :
      Shallow room (.identifier name :: rest) ↔ Shallow room rest := by
    rw [shallowAtom rfl (by simp), and_iff_right positive]
  have more (others : List String) :
      Shallow room ((others.flatMap fun name => [.comma, .identifier name]) ++ rest) ↔
        Shallow room rest := by
    induction others with
    | nil => exact Iff.rfl
    | cons name others ih =>
      rw [List.flatMap_cons, List.append_assoc, List.cons_append, List.singleton_append,
        shallowSign rfl (by simp), atom, ih]
  rw [true_and]
  cases params with
  | nil => exact Iff.rfl
  | cons name others => rw [Reader.namesCons, List.cons_append, atom, more]

theorem clauseShallow {nesting room : Nat} {word : List TokenKind} {s : Statement}
    (clause : Clause nesting word s) (wide : 1 < room) (rest : List TokenKind) :
    Shallow room (word ++ rest) ↔ nesting < room ∧ Shallow room rest := by
  have positive : 0 < room := by omega
  cases clause with
  | define name params value =>
    obtain ⟨room, rfl⟩ := Nat.exists_eq_add_of_lt positive
    rw [Nat.zero_add] at wide ⊢
    simp only [List.cons_append, List.append_assoc]
    rw [shallowSign rfl (by simp), shallowAtom rfl (by simp), and_iff_right (Nat.succ_pos room),
      shallowEnclosed (namesShallow params (by omega)), true_and, shallowSign rfl (by simp),
      phraseShallow value]
  | assign name value =>
    rw [List.cons_append, List.cons_append, shallowAtom rfl (by simp), and_iff_right positive,
      shallowSign rfl (by simp), phraseShallow value]
  | eval value => exact phraseShallow value room rest

theorem textShallow {nesting room : Nat} {word : List TokenKind} {all : List Statement}
    (text : Text nesting word all) (wide : 1 < room) : Shallow room word ↔ nesting < room := by
  induction text with
  | nil => exact ⟨fun _ => by omega, fun _ => shallowNil room⟩
  | newline rest ih => rw [shallowSign rfl (by simp), ih]
  | clause first apart rest ih => rw [clauseShallow first wide, ih, Nat.max_lt]

theorem ofTokensLow {tokens : List Token} {p : Program} (read : Program.ofTokens tokens = .ok p) :
    ∀ s ∈ p.statements, s.expr.height ≤ heightLimit := by
  obtain ⟨all, readAll, read⟩ := bindOk read
  obtain ⟨nesting, more, same, -, -, low⟩ := Reader.statementsSound readAll
  cases read
  obtain rfl : all = more := same
  exact low

theorem depthCapsExact {tokens : List Token} {p : Program} (derived : Program.Derived tokens p) :
    Capped ((∀ s ∈ p.statements, s.expr.height ≤ 1000) ∧ Shallow 200 (kinds (sentence tokens)))
        (Program.ofTokens tokens) (.ok p) ∧
      (∀ input q, Program.ofTokens input = .ok q → ∀ s ∈ q.statements, s.expr.height ≤ 1000) ∧
      ∀ stop room input r, Reader.nested stop room input = .ok r →
        r.value.height = r.value.expr.height ∧ r.value.height ≤ 1000 := by
  obtain ⟨nesting, text⟩ := derived
  have capped := Program.ofTokensCapped text
  have same : nesting < nestingLimit ↔ Shallow 200 (kinds (sentence tokens)) :=
    (textShallow text (by decide)).symm
  rw [same, and_comm] at capped
  refine ⟨capped, fun input q => ofTokensLow, fun stop room input r read => ?_⟩
  obtain ⟨⟨low, -⟩, -⟩ := Reader.nestedSound stop room input r read
  exact ⟨r.value.heightEq, low⟩

def wrapped : Nat → List Token
  | 0 => [⟨.number (.int 1), ⟨0, 0⟩⟩]
  | count + 1 => ⟨.leftParen, ⟨0, 0⟩⟩ :: (wrapped count ++ [⟨.rightParen, ⟨0, 0⟩⟩])

theorem wrappedPhrase (count : Nat) : Phrase .sum count (kinds (wrapped count)) (.number (.int 1)) := by
  have loose {nesting : Nat} {word : List TokenKind} {e : Expr} (tight : Phrase .primary nesting word e) :
      Phrase .sum nesting word e := .loosen (.loosen (.loosen (.loosen tight)))
  induction count with
  | zero => exact loose (.number (.int 1))
  | succ count ih =>
    rw [wrapped, kindsCons, kindsAppend]
    exact loose (.group ih)

theorem wrappedSentence (count : Nat) : sentence (wrapped count) = wrapped count := by
  refine List.takeWhile_eq_self_iff.mpr ?_
  induction count with
  | zero => simp [wrapped, TokenKind.isEnd]
  | succ count ih => simpa [wrapped, TokenKind.isEnd, or_imp, forall_and] using ih

theorem wrappedDerived (count : Nat) :
    Program.Derived (wrapped count) ⟨[.eval (.number (.int 1))]⟩ := by
  have text : Text (max count 0) (kinds (wrapped count) ++ []) [.eval (.number (.int 1))] :=
    .clause (.eval (wrappedPhrase count)) (by simp) .nil
  rw [List.append_nil, ← wrappedSentence count] at text
  exact ⟨_, text⟩

theorem wrappedShallow (count room : Nat) :
    Shallow room (kinds (sentence (wrapped count))) ↔ count < room := by
  have alone := phraseShallow (wrappedPhrase count) room []
  rwa [List.append_nil, and_iff_left (shallowNil room), ← wrappedSentence count] at alone

theorem depthCapsExactWrapped :
    (Program.Derived (wrapped 199) ⟨[.eval (.number (.int 1))]⟩ ∧
        Program.ofTokens (wrapped 199) = .ok ⟨[.eval (.number (.int 1))]⟩) ∧
      Program.Derived (wrapped 200) ⟨[.eval (.number (.int 1))]⟩ ∧
        TooDeep (Program.ofTokens (wrapped 200)) := by
  have inside := (depthCapsExact (wrappedDerived 199)).1
  have outside := (depthCapsExact (wrappedDerived 200)).1
  rw [wrappedShallow] at inside outside
  refine ⟨⟨wrappedDerived 199, inside.fit ⟨?_, by decide⟩⟩, wrappedDerived 200, outside.unfit ?_⟩
  · simp [Statement.expr, Expr.height]
  · exact fun fits => absurd fits.2 (by decide)

end CalcLang
