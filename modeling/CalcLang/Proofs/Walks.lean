import CalcLang.Tree.Walk

/-! Walks and readers. On a tape that has an end ahead, a walk follows a reader if both go over the
same tokens and come to the same result. A walker remembers each place it goes to, also one where it
has to stay, so its path shows that it goes on only from tokens that are no end and by one token each
time. What is shown here of single tokens is composed along the steps of the readers. -/
namespace CalcLang

structure Place.Valid (tape : Tape) (p : Place) : Prop where
  inside : p.pos < tape.length
  shallow : p.nesting ≤ nestingLimit

inductive Place.Next (tape : Tape) : Place → Place → Prop
  | token {pos nesting t} (here : tape[pos]? = some t) (other : t.kind ≠ .endOfInput) :
      Next tape ⟨pos, nesting⟩ ⟨pos + 1, nesting⟩
  | opened {pos nesting} : Next tape ⟨pos, nesting⟩ ⟨pos, nesting + 1⟩
  | closed {pos nesting} : Next tape ⟨pos, nesting + 1⟩ ⟨pos, nesting⟩

inductive Walker.Steps (tape : Tape) (w : Walker) : Walker → Prop
  | none : Steps tape w w
  | more {v next} (earlier : Steps tape w v) (step : v.place.Next tape next)
      (valid : next.Valid tape) : Steps tape w (v.go next)

structure Ahead (tape : Tape) (last : Nat) (ending : Token) (n : Nat) (p : Place)
    (input : List Token) : Prop where
  split : ∃ later, tape.drop p.pos = input ++ ending :: later
  plain : ∀ t ∈ input, t.kind ≠ .endOfInput
  ends : ending.kind = .endOfInput
  reach : p.pos + input.length = last
  level : p.nesting = n
  shallow : n ≤ nestingLimit

/-- The walk from `w` and the reading both fail with one error or both succeed with related
results, and the walker is as deep as before. -/
inductive Tracked (tape : Tape) (w : Walker) {α β : Type} (related : Walker → α → β → Prop) :
    Option (Except SyntaxError α × Walker) → Except SyntaxError β → Prop
  | ok {a b after} (steps : w.Steps tape after) (level : after.place.nesting = w.place.nesting)
      (same : related after a b) : Tracked tape w related (some (.ok a, after)) (.ok b)
  | error {e after} (steps : w.Steps tape after)
      (level : after.place.nesting = w.place.nesting) :
      Tracked tape w related (some (.error e, after)) (.error e)

theorem Walker.Steps.trans {tape : Tape} {u v w : Walker} (first : u.Steps tape v)
    (second : v.Steps tape w) : u.Steps tape w := by
  induction second with
  | none => exact first
  | more _ step valid ih => exact ih.more step valid

theorem Walker.Steps.valid {tape : Tape} {v w : Walker} (steps : w.Steps tape v)
    (start : w.place.Valid tape) : v.place.Valid tape := by
  cases steps with
  | none => exact start
  | more _ _ valid => exact valid

theorem Walker.Steps.enclosed {tape : Tape} {v w : Walker} (valid : w.place.Valid tape)
    (room : w.place.nesting < nestingLimit)
    (steps : (w.go ⟨w.place.pos, w.place.nesting + 1⟩).Steps tape v)
    (deeper : v.place.nesting = w.place.nesting + 1) :
    w.Steps tape (v.go ⟨v.place.pos, v.place.nesting - 1⟩) := by
  have inner : (w.go ⟨w.place.pos, w.place.nesting + 1⟩).place.Valid tape := ⟨valid.inside, room⟩
  have outer : (⟨v.place.pos, w.place.nesting⟩ : Place).Valid tape :=
    ⟨(steps.valid inner).inside, valid.shallow⟩
  have leaving : v.place.Next tape ⟨v.place.pos, w.place.nesting⟩ := by
    have split : v.place = ⟨v.place.pos, w.place.nesting + 1⟩ := by rw [← deeper]
    rw [split]
    exact .closed
  rw [deeper, Nat.add_sub_cancel]
  exact .more ((Steps.more .none .opened inner).trans steps) leaving outer

namespace Ahead

variable {tape : Tape} {last n : Nat} {ending t : Token} {p : Place} {input rest : List Token}

theorem here (ahead : Ahead tape last ending n p input) :
    tape[p.pos]? = some (input.headD ending) := by
  obtain ⟨later, split⟩ := ahead.split
  rw [← List.head?_drop, split]
  cases input <;> rfl

theorem valid (ahead : Ahead tape last ending n p input) : p.Valid tape := by
  refine ⟨(List.getElem?_eq_some_iff.mp ahead.here).1, ?_⟩
  rw [ahead.level]
  exact ahead.shallow

theorem behind (ahead : Ahead tape last ending n p (t :: rest)) :
    Ahead tape last ending n ⟨p.pos + 1, p.nesting⟩ rest := by
  obtain ⟨later, split⟩ := ahead.split
  refine ⟨⟨later, ?_⟩, fun u mem => ahead.plain u (List.mem_cons_of_mem _ mem), ahead.ends, ?_,
    ahead.level, ahead.shallow⟩
  · rw [← List.tail_drop, split]
    rfl
  · have reach := ahead.reach
    rw [List.length_cons] at reach
    change p.pos + 1 + rest.length = last
    omega

theorem headKind (ahead : Ahead tape last ending n p input) {kind : TokenKind}
    (other : kind ≠ .endOfInput) :
    (input.headD ending).kind = kind ↔ ∃ span rest, input = ⟨kind, span⟩ :: rest := by
  cases input with
  | nil => simpa [ahead.ends] using other.symm
  | cons t rest =>
    obtain ⟨own, span⟩ := t
    simp [eq_comm]

theorem nested {m : Nat} (ahead : Ahead tape last ending n p input) (room : m ≤ nestingLimit) :
    Ahead tape last ending m ⟨p.pos, m⟩ input :=
  ⟨ahead.split, ahead.plain, ahead.ends, ahead.reach, rfl, room⟩

end Ahead

def Copies (tape : Tape) (last : Nat) (ending : Token) (n : Nat) {α : Type} {input : List Token}
    (after : Walker) (a : α) (p : Parsed α input) : Prop :=
  a = p.value ∧ Ahead tape last ending n after.place p.rest

namespace Tape

section Steps

variable {tape : Tape} {last n : Nat} {ending t : Token} {w v : Walker} {α β γ δ : Type}
  {related : Walker → α → β → Prop} {results : Walker → γ → δ → Prop} {input rest : List Token}

theorem bindDone {m : Walk α} {k : α → Walk γ} {a : α} (done : m w = some (.ok a, v)) :
    (m >>= k) w = k a v := by
  change (m w).bind (fun r => ExceptT.bindCont k r.1 r.2) = _
  rw [done]
  rfl

theorem bindFailed {m : Walk α} {k : α → Walk γ} {e : SyntaxError} (failed : m w = some (.error e, v)) :
    (m >>= k) w = some (.error e, v) := by
  change (m w).bind (fun r => ExceptT.bindCont k r.1 r.2) = _
  rw [failed]
  rfl

theorem trackedBehind (steps : w.Steps tape v) (level : v.place.nesting = w.place.nesting)
    {outcome : Option (Except SyntaxError α × Walker)} {expected : Except SyntaxError β}
    (tracked : Tracked tape v related outcome expected) : Tracked tape w related outcome expected := by
  cases tracked with
  | ok more same relates => exact .ok (steps.trans more) (same.trans level) relates
  | error more same => exact .error (steps.trans more) (same.trans level)

theorem trackedBind {m : Walk α} {k : α → Walk γ} {n : Except SyntaxError β}
    {next : β → Except SyntaxError δ} (first : Tracked tape w related (m w) n)
    (after : ∀ v a b, related v a b → Tracked tape v results (k a v) (next b)) :
    Tracked tape w results ((m >>= k) w) (n >>= next) := by
  generalize outcome : m w = result at first
  cases first with
  | ok steps level same =>
    rw [bindDone outcome]
    exact trackedBehind steps level (after _ _ _ same)
  | error steps level =>
    rw [bindFailed outcome]
    exact .error steps level

theorem trackedCopy {outcome : Option (Except SyntaxError α × Walker)} {expected : Except SyntaxError β}
    {results : Walker → α → δ → Prop} (tracked : Tracked tape w related outcome expected) (copy : β → δ)
    (same : ∀ v a b, related v a b → results v a (copy b)) :
    Tracked tape w results outcome (expected >>= fun b => .ok (copy b)) := by
  cases tracked with
  | ok steps level relates => exact .ok steps level (same _ _ _ relates)
  | error steps level => exact .error steps level

theorem currentHere (ahead : Ahead tape last ending n w.place input) :
    tape.current w = some (.ok (input.headD ending), w) := by
  change tape[w.place.pos]?.map _ = _
  rw [ahead.here]
  rfl

theorem peekHere (ahead : Ahead tape last ending n w.place (t :: rest)) :
    tape.peek w = some (.ok (some (rest.headD ending)), w) := by
  change some (_, w) = _
  rw [ahead.behind.here]

theorem checkHere (ahead : Ahead tape last ending n w.place input) (kind : TokenKind) :
    tape.check kind w = some (.ok (decide ((input.headD ending).kind = kind)), w) :=
  bindDone (currentHere ahead)

theorem refuseTracked (ahead : Ahead tape last ending n w.place input) (expected : Expectation) :
    Tracked tape w related (tape.refuse expected w)
      (.error (Reader.unexpected ending.span.start expected input)) := by
  have same : Reader.unexpected ending.span.start expected input =
      .unexpected expected (input.headD ending).kind (input.headD ending).span.start := by
    cases input with
    | nil => rw [List.headD_nil, ahead.ends, Reader.unexpected]
    | cons t rest => rfl
  have outcome : tape.refuse expected w =
      some ((.error (.unexpected expected (input.headD ending).kind (input.headD ending).span.start) :
        Except SyntaxError α), w) := bindDone (currentHere ahead)
  rw [same, outcome]
  exact .error .none rfl

theorem refuseDeepTracked (ahead : Ahead tape last ending n w.place input) :
    Tracked tape w related (tape.refuseDeep w)
      (.error (.tooDeep nestingLimit (Reader.position ending.span.start input))) := by
  have same : Reader.position ending.span.start input = (input.headD ending).span.start := by
    cases input <;> rfl
  have outcome : tape.refuseDeep w =
      some ((.error (.tooDeep nestingLimit (input.headD ending).span.start) :
        Except SyntaxError α), w) := bindDone (currentHere ahead)
  rw [same, outcome]
  exact .error .none rfl

theorem advanceHere (ahead : Ahead tape last ending n w.place (t :: rest)) :
    tape.advance w = some (.ok (), w.go ⟨w.place.pos + 1, w.place.nesting⟩) := by
  have inside := ahead.behind.valid.inside
  change some _ = _
  rw [if_pos inside]

theorem advanceSteps (ahead : Ahead tape last ending n w.place (t :: rest)) :
    w.Steps tape (w.go ⟨w.place.pos + 1, w.place.nesting⟩) :=
  .more .none (.token ahead.here (ahead.plain t List.mem_cons_self)) ahead.behind.valid

theorem advanceTracked {k : Unit → Walk α} {expected : Except SyntaxError β}
    (ahead : Ahead tape last ending n w.place (t :: rest))
    (after : ∀ v, Ahead tape last ending n v.place rest → Tracked tape v related (k () v) expected) :
    Tracked tape w related ((tape.advance >>= k) w) expected := by
  rw [bindDone (advanceHere ahead)]
  exact trackedBehind (advanceSteps ahead) rfl (after _ ahead.behind)

theorem checkTracked {kind : TokenKind} (other : kind ≠ .endOfInput) {yes no : Walk α}
    {expected : Except SyntaxError β} (ahead : Ahead tape last ending n w.place input)
    (found : ∀ span rest, input = ⟨kind, span⟩ :: rest → Tracked tape w related (yes w) expected)
    (missing : (∀ span rest, input ≠ ⟨kind, span⟩ :: rest) → Tracked tape w related (no w) expected) :
    Tracked tape w related ((tape.check kind >>= fun b => if b = true then yes else no) w) expected := by
  rw [bindDone (checkHere ahead kind)]
  by_cases same : (input.headD ending).kind = kind
  · rw [if_pos (decide_eq_true same)]
    obtain ⟨span, rest, split⟩ := (ahead.headKind other).mp same
    exact found span rest split
  · rw [if_neg (by simpa using same)]
    refine missing fun span rest split => same ?_
    exact (ahead.headKind other).mpr ⟨span, rest, split⟩

theorem ofResultTracked {m : Except SyntaxError α} :
    Tracked tape w (fun after a b => a = b ∧ after = w) (Walk.ofResult m w) m := by
  cases m with
  | error e => exact .error .none rfl
  | ok a => exact .ok .none rfl ⟨rfl, rfl⟩

end Steps

def Follows (tape : Tape) (last : Nat) (ending : Token) (n : Nat) {α : Type} (walk : Walk α)
    (reader : Reader α) : Prop :=
  ∀ w input, Ahead tape last ending n w.place input →
    Tracked tape w (Copies tape last ending n) (walk w) (reader input)

section Readers

variable {tape : Tape} {last n : Nat} {ending : Token}

theorem expectFollows {kind : TokenKind} (other : kind ≠ .endOfInput) (expected : Expectation) :
    Follows tape last ending n (tape.expect kind expected)
      (Reader.expect ending.span.start kind expected) := by
  intro w input ahead
  refine checkTracked other ahead (fun span rest split => ?_) fun missing => ?_
  · subst split
    rw [advanceHere ahead, Reader.expect, if_pos rfl]
    exact .ok (advanceSteps ahead) rfl ⟨rfl, ahead.behind⟩
  · have failed : Reader.expect ending.span.start kind expected input =
        .error (Reader.unexpected ending.span.start expected input) := by
      cases input with
      | nil => rfl
      | cons t rest => exact if_neg fun same => missing t.span rest (by rw [← same])
    rw [failed]
    exact refuseTracked ahead expected

theorem closeTracked {w : Walker} {α : Type} {input outer : List Token} {a : α}
    (ahead : Ahead tape last ending n w.place input) (behind : Parsed Unit input → Parsed α outer)
    (read : ∀ closing, (behind closing).value = a ∧ (behind closing).rest = closing.rest) :
    Tracked tape w (Copies tape last ending n) (tape.close a w)
      (Reader.expect ending.span.start .rightParen .rightParen input >>= fun closing =>
        .ok (behind closing)) := by
  refine trackedBind (expectFollows (by decide) .rightParen w input ahead) fun v _ closing closed => ?_
  refine .ok .none rfl ⟨(read closing).1.symm, ?_⟩
  rw [(read closing).2]
  exact closed.2

theorem identifierFollows :
    Follows tape last ending n tape.identifier (Reader.identifier ending.span.start) := by
  intro w input ahead
  unfold identifier
  rw [bindDone (currentHere ahead)]
  cases input with
  | nil =>
    rw [List.headD_nil, ahead.ends]
    exact refuseTracked ahead .identifier
  | cons t rest =>
    obtain ⟨kind, span⟩ := t
    cases kind with
    | identifier name => exact advanceTracked ahead fun v behind => .ok .none rfl ⟨rfl, behind⟩
    | _ => exact refuseTracked ahead .identifier

end Readers
end Tape
end CalcLang
