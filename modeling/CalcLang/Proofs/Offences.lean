import CalcLang.Proofs.Spans

/-! Where a source is at fault. By maximal munch every source is cut, from the left, into blanks,
texts that look like lexemes, and characters that begin none; a character of the last kind and an
integer that is too large are the offences. Reading fails at the first of them, if there is one,
and what stands before it is read without an error. -/
namespace CalcLang

def IsShape (text : List Char) : Prop := IsRun text ∨ ∃ c kind, text = [c] ∧ (c, kind) ∈ symbols

/-- The first text is the longest shape with which the two together begin. -/
structure Munch (text after : List Char) : Prop where
  shape : IsShape text
  longest : ∀ longer rest, text ++ after = longer ++ rest → IsShape longer →
    longer.length ≤ text.length

def TooLarge (text : List Char) : Prop := IsDigits text ∧ Int64.maxValue.toInt < digitsValue text

inductive Cut : Nat → List Char → List LexError → Prop
  | done {offset} : Cut offset [] []
  | blank {offset c rest errors} (blank : Blank c) (later : Cut (offset + 1) rest errors) :
      Cut offset (c :: rest) errors
  | lexeme {offset text after errors} (munch : Munch text after) (fits : ¬ TooLarge text)
      (later : Cut (offset + text.length) after errors) : Cut offset (text ++ after) errors
  | number {offset text after errors} (munch : Munch text after) (large : TooLarge text)
      (later : Cut (offset + text.length) after errors) :
      Cut offset (text ++ after) (.invalidNumber (String.ofList text) offset :: errors)
  | character {offset c rest errors} (blank : ¬ Blank c) (part : ¬ WordPart c)
      (unlisted : ∀ kind, (c, kind) ∉ symbols) (later : Cut (offset + c.utf8Size) rest errors) :
      Cut offset (c :: rest) (.unexpectedCharacter c offset :: errors)

section Longest

variable {text after : List Char}

theorem IsDigits.extend {c : Char} (digits : IsDigits text) (digit : Digit c) : IsDigits (text ++ [c]) :=
  ⟨by simp, List.forall_mem_append.mpr ⟨digits.2, List.forall_mem_singleton.mpr digit⟩⟩

theorem IsWord.extend {c : Char} (word : IsWord text) (part : WordPart c) : IsWord (text ++ [c]) := by
  obtain ⟨first, more, rfl, letter, parts⟩ := word
  exact ⟨first, more ++ [c], rfl, letter,
    List.forall_mem_append.mpr ⟨parts, List.forall_mem_singleton.mpr part⟩⟩

theorem IsDigits.single {c : Char} (digit : Digit c) : IsDigits [c] :=
  ⟨List.cons_ne_nil c [], List.forall_mem_singleton.mpr digit⟩

theorem Munch.stops {belongs : Char → Prop} (munch : Munch text after)
    (extend : ∀ c, belongs c → IsShape (text ++ [c])) : Stops belongs after := by
  intro c head holds
  obtain ⟨rest, rfl⟩ := List.head?_eq_some_iff.mp head
  have bounded := munch.longest (text ++ [c]) rest (by simp) (extend c holds)
  rw [List.length_append, List.length_singleton] at bounded
  omega

theorem Munch.stopsDigits (munch : Munch text after) (digits : IsDigits text) :
    Stops Digit after ∧ NoFraction after := by
  constructor
  · exact munch.stops fun c digit => .inl (.inr (.inl (digits.extend digit)))
  · intro c rest same digit
    have fraction : IsFraction (text ++ ['.', c]) := ⟨text, [c], rfl, digits, .single digit⟩
    have bounded := munch.longest (text ++ ['.', c]) rest (by simp [same]) (.inl (.inr (.inr fraction)))
    simp at bounded

theorem Munch.lexeme (munch : Munch text after) (fits : ¬ TooLarge text) :
    ∃ kind, Lexeme text after kind := by
  rcases munch.shape with (word | digits | ⟨whole, fraction, rfl, left, right⟩) | ⟨c, kind, rfl, listed⟩
  · have stop : Stops WordPart after := munch.stops fun c part => .inl (.inl (word.extend part))
    by_cases same : text = "function".toList
    · rw [same]
      exact ⟨_, .keyword stop⟩
    · exact ⟨_, .name word same stop⟩
  · obtain ⟨stop, noFraction⟩ := munch.stopsDigits digits
    have small : digitsValue text ≤ Int64.maxValue.toInt := Int.not_lt.mp fun large => fits ⟨digits, large⟩
    exact ⟨_, .integer digits (integerValue small) stop noFraction⟩
  · have stop : Stops Digit after := munch.stops fun c digit =>
      .inl (.inr (.inr ⟨whole, fraction ++ [c], by simp, left, right.extend digit⟩))
    exact ⟨_, .float left right stop⟩
  · exact ⟨kind, .symbol listed⟩

theorem munchLonger (shape : IsShape text) (nonempty : text ≠ [])
    (longest : ∀ longer rest, text ++ after = longer ++ rest → IsRun longer →
      longer.length ≤ text.length) : Munch text after := by
  refine ⟨shape, fun longer rest same other => ?_⟩
  rcases other with run | ⟨c, kind, rfl, _⟩
  · exact longest longer rest same run
  · exact List.length_pos_iff.mpr nonempty

theorem Lexeme.shape {kind : TokenKind} (lexeme : Lexeme text after kind) : IsShape text := by
  cases lexeme with
  | keyword stop => exact .inl (.inl keywordWord)
  | name word other stop => exact .inl (.inl word)
  | integer digits value stop noFraction => exact .inl (.inr (.inl digits))
  | float left right stop => exact .inl (.inr (.inr ⟨_, _, rfl, left, right⟩))
  | symbol listed => exact .inr ⟨_, _, rfl, listed⟩

theorem Lexeme.fits {kind : TokenKind} (lexeme : Lexeme text after kind) : ¬ TooLarge text := by
  rintro ⟨digits, large⟩
  cases lexeme with
  | keyword stop => exact absurd (digits.2 'f' List.mem_cons_self) (by decide)
  | name word other stop =>
    obtain ⟨first, more, rfl, letter, _⟩ := word
    exact letterNotDigit letter (digits.2 first List.mem_cons_self)
  | @integer _ _ n _ value stop noFraction =>
    have bounded := n.toInt_le
    omega
  | float left right stop => exact absurd (digits.2 '.' (by simp)) (by decide)
  | symbol listed => exact (symbolOther listed).2 (.inr (digits.2 _ List.mem_cons_self))

theorem Lexeme.munch {kind : TokenKind} (lexeme : Lexeme text after kind) : Munch text after := by
  obtain ⟨first, more, same, _⟩ := lexeme.head
  exact munchLonger lexeme.shape (same ▸ List.cons_ne_nil first more) fun longer rest joined run =>
    lexeme.longest run joined

end Longest

theorem cutExists (offset : Nat) (source : List Char) : ∃ errors, Cut offset source errors := by
  cases source with
  | nil => exact ⟨[], .done⟩
  | cons first rest =>
    by_cases blank : Blank first
    · obtain ⟨errors, later⟩ := cutExists (offset + 1) rest
      exact ⟨errors, .blank blank later⟩
    · rcases beginsSomehow blank rest offset with ⟨text, after, kind, same, lexeme⟩ | ⟨e, offence⟩
      · have shorter : after.length < (first :: rest).length := by
          obtain ⟨c, more, rfl, _⟩ := lexeme.head
          rw [same, List.length_append, List.length_cons]
          omega
        obtain ⟨errors, later⟩ := cutExists (offset + text.length) after
        rw [same]
        exact ⟨errors, .lexeme lexeme.munch lexeme.fits later⟩
      · generalize whole : first :: rest = source at offence
        cases offence with
        | character other part unlisted =>
          cases whole
          obtain ⟨errors, later⟩ := cutExists (offset + first.utf8Size) rest
          exact ⟨_, .character other part unlisted later⟩
        | @number digits after all stop noFraction large =>
          have shorter : after.length < (first :: rest).length := by
            rw [whole, List.length_append]
            have positive := List.length_pos_iff.mpr all.1
            omega
          have munch : Munch digits after := munchLonger (.inl (.inr (.inl all))) all.1
            fun longer others joined run => integerLongest all stop noFraction run joined
          obtain ⟨errors, later⟩ := cutExists (offset + digits.length) after
          exact ⟨_, .number munch ⟨all, large⟩ later⟩
termination_by source.length
decreasing_by
  · exact Nat.lt_succ_self _
  · exact shorter
  · exact Nat.lt_succ_self _
  · exact shorter

def Reads (offset : Nat) (source : List Char) : Option LexError → Prop
  | none => ∃ tokens, Scan offset source tokens
  | some e => Broken offset source e

section Reads

variable {offset : Nat} {text after rest : List Char} {c : Char} {outcome : Option LexError}

theorem offsetCons (offset : Nat) (c : Char) (gap : List Char) :
    offset + 1 + gap.length = offset + (c :: gap).length := by
  rw [List.length_cons]
  omega

theorem Scan.afterBlank {tokens : List Token} (blank : Blank c) (scan : Scan (offset + 1) rest tokens) :
    Scan offset (c :: rest) tokens := by
  cases scan with
  | last more =>
    rw [offsetCons offset c]
    exact .last (List.forall_mem_cons.mpr ⟨blank, more⟩)
  | next more lexeme later =>
    rw [offsetCons offset c] at later ⊢
    exact .next (List.forall_mem_cons.mpr ⟨blank, more⟩) lexeme later

theorem Broken.afterBlank {e : LexError} (blank : Blank c) (broken : Broken (offset + 1) rest e) :
    Broken offset (c :: rest) e := by
  cases broken with
  | here more offence =>
    rw [offsetCons offset c] at offence
    exact .here (List.forall_mem_cons.mpr ⟨blank, more⟩) offence
  | later more lexeme inner =>
    rw [offsetCons offset c] at inner
    exact .later (List.forall_mem_cons.mpr ⟨blank, more⟩) lexeme inner

theorem Reads.afterBlank (blank : Blank c) (reads : Reads (offset + 1) rest outcome) :
    Reads offset (c :: rest) outcome := by
  cases outcome with
  | none =>
    obtain ⟨tokens, scan⟩ := reads
    exact ⟨tokens, scan.afterBlank blank⟩
  | some e => exact Broken.afterBlank blank reads

theorem Reads.afterLexeme {kind : TokenKind} (lexeme : Lexeme text after kind)
    (reads : Reads (offset + text.length) after outcome) : Reads offset (text ++ after) outcome := by
  cases outcome with
  | none =>
    obtain ⟨tokens, scan⟩ := reads
    exact ⟨_, .next (List.forall_mem_nil _) lexeme scan⟩
  | some e => exact Broken.later (List.forall_mem_nil _) lexeme reads

theorem Offence.broken {e : LexError} (offence : Offence offset rest e) : Broken offset rest e := by
  have here : Broken offset ([] ++ rest) e := .here (List.forall_mem_nil _) offence
  exact here

theorem Cut.reads {errors : List LexError} (cut : Cut offset rest errors) :
    Reads offset rest errors.head? := by
  induction cut with
  | done => exact ⟨_, .last (List.forall_mem_nil _)⟩
  | blank blank later ih => exact ih.afterBlank blank
  | lexeme munch fits later ih =>
    obtain ⟨kind, lexeme⟩ := munch.lexeme fits
    exact ih.afterLexeme lexeme
  | number munch large later ih =>
    obtain ⟨stop, noFraction⟩ := munch.stopsDigits large.1
    exact Offence.broken (.number large.1 stop noFraction large.2)
  | character blank part unlisted later ih => exact Offence.broken (.character blank part unlisted)

theorem tokenizeReads {source : String} (reads : Reads 0 source.toList outcome) (e : LexError) :
    tokenize source = .error e ↔ outcome = some e := by
  cases outcome with
  | none =>
    obtain ⟨tokens, scan⟩ := reads
    rw [tokenizeScan scan]
    simp
  | some first =>
    rw [tokenizeBroken reads]
    simp

end Reads

theorem Lexeme.cutBehind {text before rest : List Char} {kind : TokenKind}
    (lexeme : Lexeme text (before ++ rest) kind) : Lexeme text before kind := by
  have stops {belongs : Char → Prop} (stop : Stops belongs (before ++ rest)) : Stops belongs before := by
    cases before with
    | nil => exact stopsNil belongs
    | cons c before => exact stop
  refine lexeme.behind stops stops fun noFraction c others same => ?_
  exact noFraction c (others ++ rest) (by rw [same]; rfl)

theorem Broken.soundBefore {offset : Nat} {source : List Char} {e : LexError}
    (broken : Broken offset source e) :
    ∃ before rest tokens, source = before ++ rest ∧ Scan offset before tokens ∧
      Offence (offset + before.length) rest e := by
  induction broken with
  | @here offset gap rest e blank offence => exact ⟨gap, rest, _, rfl, .last blank, offence⟩
  | @later offset gap text after kind e blank lexeme inner ih =>
    obtain ⟨before, rest, tokens, rfl, scan, offence⟩ := ih
    refine ⟨gap ++ (text ++ before), rest, _, by simp, .next blank lexeme.cutBehind scan, ?_⟩
    simpa only [List.length_append, Nat.add_assoc] using offence

theorem tokenizeFirstOffence (source : String) :
    (∀ e, tokenize source = .error e → ∃ before rest, source = before ++ rest ∧
        Offence before.utf8ByteSize rest.toList e ∧ ∃ tokens, tokenize before = .ok tokens) ∧
      (∃ errors, Cut 0 source.toList errors) ∧
      ∀ errors, Cut 0 source.toList errors →
        ∀ e, tokenize source = .error e ↔ errors.head? = some e := by
  refine ⟨fun e failed => ?_, cutExists 0 source.toList, fun errors cut => tokenizeReads cut.reads⟩
  obtain ⟨before, rest, tokens, split, scan, offence⟩ := (tokenizeErrorIff.mp failed).soundBefore
  have sound : Scan 0 (String.ofList before).toList tokens := by rwa [String.toList_ofList]
  have size : (String.ofList before).utf8ByteSize = 0 + before.length := by
    rw [asciiSize scan.ascii, Nat.zero_add]
  refine ⟨String.ofList before, String.ofList rest, ?_, ?_, tokens, tokenizeScan sound⟩
  · rw [← String.ofList_append, ← split, String.ofList_toList]
  · rwa [size, String.toList_ofList]

end CalcLang
