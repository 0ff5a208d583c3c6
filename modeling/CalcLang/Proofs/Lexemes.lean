import CalcLang.Token.Stream
import Mathlib.Data.Nat.Digits.Defs
import Mathlib.Data.List.Induction

/-! The texts of tokens. A source is blanks and lexemes in turn, and a lexeme is followed by
nothing that would go on with it; what is neither blank nor the start of a lexeme is an
offence. Every text begins in one of these ways, and the cursor tells which. -/
namespace CalcLang

def Blank (c : Char) : Prop := c = ' ' ∨ c = '\t' ∨ c = '\r'

def Digit (c : Char) : Prop := '0' ≤ c ∧ c ≤ '9'

def Letter (c : Char) : Prop := ('a' ≤ c ∧ c ≤ 'z') ∨ ('A' ≤ c ∧ c ≤ 'Z') ∨ c = '_'

def WordPart (c : Char) : Prop := Letter c ∨ Digit c

instance (c : Char) : Decidable (Digit c) := inferInstanceAs (Decidable (_ ∧ _))

instance (c : Char) : Decidable (Letter c) := inferInstanceAs (Decidable (_ ∨ _))

instance (c : Char) : Decidable (WordPart c) := inferInstanceAs (Decidable (_ ∨ _))

def symbols : List (Char × TokenKind) :=
  [('=', .assign), (',', .comma), ('(', .leftParen), (')', .rightParen), ('\n', .newline),
    ('+', .operator .add), ('-', .operator .sub), ('*', .operator .mul), ('/', .operator .div),
    ('^', .operator .pow)]

def IsWord (text : List Char) : Prop :=
  ∃ first more, text = first :: more ∧ Letter first ∧ ∀ c ∈ more, WordPart c

def IsDigits (text : List Char) : Prop := text ≠ [] ∧ ∀ c ∈ text, Digit c

-- Over the characters of the text: a search for an instance may find the one over all characters.
instance (text : List Char) : Decidable (IsDigits text) :=
  @instDecidableAnd _ _ inferInstance (List.decidableBAll Digit text)

def IsFraction (text : List Char) : Prop :=
  ∃ whole fraction, text = whole ++ '.' :: fraction ∧ IsDigits whole ∧ IsDigits fraction

def digitsValue (digits : List Char) : Nat :=
  Nat.ofDigits 10 (digits.reverse.map fun c => c.toNat - '0'.toNat)

def Stops (belongs : Char → Prop) (text : List Char) : Prop := ∀ c ∈ text.head?, ¬ belongs c

def NoFraction (text : List Char) : Prop := ∀ c rest, text = '.' :: c :: rest → ¬ Digit c

/-- The first text, with the second one behind it, is a token of the kind. -/
inductive Lexeme : List Char → List Char → TokenKind → Prop
  | keyword {after} (stop : Stops WordPart after) : Lexeme "function".toList after .function
  | name {text after} (word : IsWord text) (other : text ≠ "function".toList)
      (stop : Stops WordPart after) : Lexeme text after (.identifier (String.ofList text))
  | integer {text after} {n : Int64} (digits : IsDigits text) (value : n.toInt = digitsValue text)
      (stop : Stops Digit after) (noFraction : NoFraction after) :
      Lexeme text after (.number (.int n))
  | float {whole fraction after} (left : IsDigits whole) (right : IsDigits fraction)
      (stop : Stops Digit after) :
      Lexeme (whole ++ '.' :: fraction) after
        (.number (.float (Binary64.ofMagnitude (Binary64.ofDecimal (Decimal.ofDigits whole fraction)))))
  | symbol {c kind after} (listed : (c, kind) ∈ symbols) : Lexeme [c] after kind

inductive Offence (offset : Nat) : List Char → LexError → Prop
  | character {c rest} (blank : ¬ Blank c) (part : ¬ WordPart c)
      (unlisted : ∀ kind, (c, kind) ∉ symbols) :
      Offence offset (c :: rest) (.unexpectedCharacter c offset)
  | number {digits after} (all : IsDigits digits) (stop : Stops Digit after)
      (noFraction : NoFraction after) (large : Int64.maxValue.toInt < digitsValue digits) :
      Offence offset (digits ++ after) (.invalidNumber (String.ofList digits) offset)

inductive Scan : Nat → List Char → List Token → Prop
  | last {offset gap} (blank : ∀ c ∈ gap, Blank c) :
      Scan offset gap [⟨.endOfInput, ⟨offset + gap.length, offset + gap.length⟩⟩]
  | next {offset gap text after kind tokens} (blank : ∀ c ∈ gap, Blank c)
      (lexeme : Lexeme text after kind)
      (later : Scan (offset + gap.length + text.length) after tokens) :
      Scan offset (gap ++ (text ++ after))
        (⟨kind, ⟨offset + gap.length, offset + gap.length + text.length⟩⟩ :: tokens)

inductive Broken : Nat → List Char → LexError → Prop
  | here {offset gap rest e} (blank : ∀ c ∈ gap, Blank c)
      (offence : Offence (offset + gap.length) rest e) : Broken offset (gap ++ rest) e
  | later {offset gap text after kind e} (blank : ∀ c ∈ gap, Blank c)
      (lexeme : Lexeme text after kind) (inner : Broken (offset + gap.length + text.length) after e) :
      Broken offset (gap ++ (text ++ after)) e

section Classes

variable {c : Char}

theorem stopsNil (belongs : Char → Prop) : Stops belongs [] := by simp [Stops]

theorem stopsCons {belongs : Char → Prop} (other : ¬ belongs c) (rest : List Char) :
    Stops belongs (c :: rest) := by simpa [Stops] using other

theorem isBlankIff : Cursor.isBlank c = true ↔ Blank c := by
  simp [Cursor.isBlank, Blank, or_assoc]

theorem isDigitIff : c.isDigit = true ↔ Digit c := by
  simp [Char.isDigit, Digit, Char.le_def]

theorem isWordStartIff : Cursor.isWordStart c = true ↔ Letter c := by
  have alpha : c.isAlpha = (decide ('A'.val ≤ c.val ∧ c.val ≤ 'Z'.val) ||
      decide ('a'.val ≤ c.val) && decide (c.val ≤ 'z'.val)) := rfl
  simp only [Cursor.isWordStart, Letter, alpha, Bool.or_eq_true, Bool.and_eq_true, decide_eq_true_eq,
    beq_iff_eq, Char.le_def]
  rw [or_assoc, or_left_comm]

theorem isWordPartIff : Cursor.isWordPart c = true ↔ WordPart c := by
  rw [WordPart, ← isWordStartIff, ← isDigitIff]
  simp only [Cursor.isWordPart, Cursor.isWordStart, Char.isAlphanum, Bool.or_eq_true]
  exact or_right_comm

theorem ofSymbolIff {kind : TokenKind} :
    TokenKind.ofSymbol? c = some kind ↔ (c, kind) ∈ symbols := by
  constructor
  · intro found
    unfold TokenKind.ofSymbol? at found
    split at found
    case h_6 =>
      obtain ⟨op, found, rfl⟩ := Option.map_eq_some_iff.mp found
      unfold Operator.ofSymbol? at found
      split at found <;> cases found <;> simp [symbols]
    all_goals
      cases found
      simp [symbols]
  · intro listed
    simp only [symbols, List.mem_cons, List.not_mem_nil, or_false, Prod.mk.injEq] at listed
    rcases listed with ⟨rfl, rfl⟩ | ⟨rfl, rfl⟩ | ⟨rfl, rfl⟩ | ⟨rfl, rfl⟩ | ⟨rfl, rfl⟩ | ⟨rfl, rfl⟩ |
      ⟨rfl, rfl⟩ | ⟨rfl, rfl⟩ | ⟨rfl, rfl⟩ | ⟨rfl, rfl⟩ <;> rfl

theorem letterNotDigit (letter : Letter c) : ¬ Digit c := by
  rcases letter with ⟨low, _⟩ | ⟨low, _⟩ | rfl
  · exact fun digit => absurd (Char.le_trans low digit.2) (by decide)
  · exact fun digit => absurd (Char.le_trans low digit.2) (by decide)
  · decide

theorem blankOther (blank : Blank c) : ¬ WordPart c ∧ ∀ kind, (c, kind) ∉ symbols := by
  rcases blank with rfl | rfl | rfl <;> exact ⟨by decide, by simp [symbols]⟩

theorem partNotBlank (part : WordPart c) : ¬ Blank c := fun blank => (blankOther blank).1 part

theorem symbolOther {kind : TokenKind} (listed : (c, kind) ∈ symbols) : ¬ Blank c ∧ ¬ WordPart c := by
  refine ⟨fun blank => (blankOther blank).2 kind listed, ?_⟩
  have other : ∀ s ∈ symbols, ¬ WordPart s.1 := by decide
  exact other _ listed

theorem pointStops (rest : List Char) : Stops Digit ('.' :: rest) := stopsCons (by decide) rest

theorem keywordWord : IsWord "function".toList := by
  have parts : ['u', 'n', 'c', 't', 'i', 'o', 'n'].all Cursor.isWordPart = true := rfl
  exact ⟨'f', _, rfl, by decide, fun c mem => isWordPartIff.mp (List.all_eq_true.mp parts c mem)⟩

theorem IsDigits.head {text : List Char} (digits : IsDigits text) :
    ∃ first more, text = first :: more ∧ Digit first := by
  obtain ⟨first, more, rfl⟩ := List.exists_cons_of_ne_nil digits.1
  exact ⟨first, more, rfl, digits.2 first List.mem_cons_self⟩

end Classes

/-! A run of one class of characters and what stops it. -/

section Runs

variable {p : Char → Bool} {belongs : Char → Prop} {text after : List Char}

theorem takeRun (same : ∀ c, p c = true ↔ belongs c) (all : ∀ c ∈ text, belongs c)
    (stop : Stops belongs after) : (text ++ after).takeWhile p = text := by
  rw [List.takeWhile_append_of_pos fun c mem => (same c).mpr (all c mem)]
  cases after with
  | nil => rw [List.takeWhile_nil, List.append_nil]
  | cons c rest =>
    have other : ¬ p c = true := fun holds => stop c rfl ((same c).mp holds)
    rw [List.takeWhile_cons_of_neg other, List.append_nil]

theorem dropRun (same : ∀ c, p c = true ↔ belongs c) (all : ∀ c ∈ text, belongs c)
    (stop : Stops belongs after) : (text ++ after).dropWhile p = after := by
  have whole := List.takeWhile_append_dropWhile (p := p) (l := text ++ after)
  rw [takeRun same all stop] at whole
  exact List.append_cancel_left whole

theorem splitRun (belongs : Char → Prop) (text : List Char) :
    ∃ run after, text = run ++ after ∧ (∀ c ∈ run, belongs c) ∧ Stops belongs after := by
  induction text with
  | nil => exact ⟨[], [], rfl, List.forall_mem_nil _, stopsNil belongs⟩
  | cons c rest ih =>
    by_cases holds : belongs c
    · obtain ⟨run, after, rfl, all, stop⟩ := ih
      exact ⟨c :: run, after, rfl, List.forall_mem_cons.mpr ⟨holds, all⟩, stop⟩
    · exact ⟨[], c :: rest, rfl, List.forall_mem_nil _, stopsCons holds rest⟩

end Runs

namespace Cursor

variable {offset : Nat} {gap text after rest : List Char} {first : Char}

theorem skipBlanksGap (blank : ∀ c ∈ gap, Blank c) (stop : Stops Blank rest) :
    (mk (gap ++ rest) offset).skipBlanks = ⟨rest, offset + gap.length⟩ := by
  rw [skipBlanks, takeRun (fun _ => isBlankIff) blank stop, advance, List.drop_left]

theorem skipBlanksNone (stop : Stops Blank rest) :
    (mk rest offset).skipBlanks = ⟨rest, offset⟩ := skipBlanksGap (List.forall_mem_nil _) stop

theorem nextGap (blank : ∀ c ∈ gap, Blank c) (stop : Stops Blank rest) :
    (mk (gap ++ rest) offset).next = (mk rest (offset + gap.length)).next := by
  simp only [next, skipBlanksGap blank stop, skipBlanksNone stop]

theorem nextEnd (blank : ∀ c ∈ gap, Blank c) :
    (mk gap offset).next =
      (.ok ⟨.endOfInput, ⟨offset + gap.length, offset + gap.length⟩⟩, ⟨[], offset + gap.length⟩) := by
  have skipped : (mk (gap ++ []) offset).skipBlanks = ⟨[], offset + gap.length⟩ :=
    skipBlanksGap blank (stopsNil Blank)
  rw [List.append_nil] at skipped
  simp only [next, skipped]
  rfl

theorem nextDigit (digit : Digit first) :
    (mk (first :: rest) offset).next = (mk (first :: rest) offset).number := by
  have stop : Stops Blank (first :: rest) := stopsCons (partNotBlank (.inr digit)) rest
  simp only [next, skipBlanksNone stop, isDigitIff.mpr digit, if_true]

theorem nextLetter (letter : Letter first) :
    (mk (first :: rest) offset).next = (mk (first :: rest) offset).word := by
  have stop : Stops Blank (first :: rest) := stopsCons (partNotBlank (.inl letter)) rest
  have noDigit : ¬ first.isDigit = true := fun digit => letterNotDigit letter (isDigitIff.mp digit)
  simp only [next, skipBlanksNone stop, noDigit, isWordStartIff.mpr letter, if_true]
  rfl

theorem nextOther (blank : ¬ Blank first) (part : ¬ WordPart first) :
    (mk (first :: rest) offset).next =
      match TokenKind.ofSymbol? first with
      | some kind => (.ok ⟨kind, ⟨offset, offset + 1⟩⟩, ⟨rest, offset + 1⟩)
      | none => (.error (.unexpectedCharacter first offset), ⟨first :: rest, offset⟩) := by
  have stop : Stops Blank (first :: rest) := stopsCons blank rest
  have noDigit : ¬ first.isDigit = true := fun digit => part (.inr (isDigitIff.mp digit))
  have noLetter : ¬ isWordStart first = true := fun letter => part (.inl (isWordStartIff.mp letter))
  simp only [next, skipBlanksNone stop, noDigit, noLetter]
  cases TokenKind.ofSymbol? first <;> rfl

theorem wordRead (offset : Nat) (word : IsWord text) (stop : Stops WordPart after) :
    (mk (text ++ after) offset).word =
      (.ok ⟨.ofWord (String.ofList text), ⟨offset, offset + text.length⟩⟩,
        ⟨after, offset + text.length⟩) := by
  obtain ⟨first, more, rfl, letter, parts⟩ := word
  have all : ∀ c ∈ first :: more, WordPart c := List.forall_mem_cons.mpr ⟨.inl letter, parts⟩
  simp only [Cursor.word, takeRun (fun _ => isWordPartIff) all stop, emit, advance, List.drop_left]

/-! The three ways in which a run of digits is read. -/

theorem ofDigitCharsValue (digits : List Char) : Nat.ofDigitChars 10 digits 0 = digitsValue digits := by
  unfold digitsValue
  induction digits using List.reverseRecOn with
  | nil => rfl
  | append_singleton digits c ih =>
    rw [Nat.ofDigitChars_append, ih, List.reverse_append, List.reverse_singleton,
      List.singleton_append, List.map_cons, Nat.ofDigits_cons]
    exact Nat.add_comm _ _

theorem fractionNone (noFraction : NoFraction after) : fractionOf after = [] := by
  unfold fractionOf
  split
  · rename_i rest
    cases rest with
    | nil => rfl
    | cons c rest =>
      have other : ¬ c.isDigit = true := fun digit => noFraction c rest rfl (isDigitIff.mp digit)
      exact List.takeWhile_cons_of_neg other
  · rfl

theorem numberWhole (digits : IsDigits text) (stop : Stops Digit after)
    (noFraction : NoFraction after) :
    (mk (text ++ after) offset).number =
      if digitsValue text ≤ Int64.maxValue.toInt.toNat then
        (.ok ⟨.number (.int (Int64.ofNat (digitsValue text))), ⟨offset, offset + text.length⟩⟩,
          ⟨after, offset + text.length⟩)
      else (.error (.invalidNumber (String.ofList text) offset), ⟨after, offset + text.length⟩) := by
  simp only [number, takeRun (fun _ => isDigitIff) digits.2 stop,
    dropRun (fun _ => isDigitIff) digits.2 stop, fractionNone noFraction, ofDigitCharsValue, emit,
    advance, List.drop_left]
  rfl

theorem integerRead (offset : Nat) {n : Int64} (digits : IsDigits text)
    (value : n.toInt = digitsValue text) (stop : Stops Digit after) (noFraction : NoFraction after) :
    (mk (text ++ after) offset).number =
      (.ok ⟨.number (.int n), ⟨offset, offset + text.length⟩⟩, ⟨after, offset + text.length⟩) := by
  have bounded := n.toInt_le
  have small : digitsValue text ≤ Int64.maxValue.toInt.toNat := by omega
  have below : digitsValue text < 2 ^ 63 := Nat.lt_of_le_of_lt small (by decide)
  have same : Int64.ofNat (digitsValue text) = n :=
    Int64.toInt_inj.mp ((Int64.toInt_ofNat_of_lt below).trans value.symm)
  rw [numberWhole digits stop noFraction, if_pos small, same]

theorem largeRead (offset : Nat) (digits : IsDigits text)
    (large : Int64.maxValue.toInt < digitsValue text) (stop : Stops Digit after) (noFraction : NoFraction after) :
    (mk (text ++ after) offset).number =
      (.error (.invalidNumber (String.ofList text) offset), ⟨after, offset + text.length⟩) := by
  have positive : 0 ≤ Int64.maxValue.toInt := by decide
  rw [numberWhole digits stop noFraction, if_neg (by omega)]

theorem floatRead (offset : Nat) {whole fraction : List Char} (left : IsDigits whole)
    (right : IsDigits fraction) (stop : Stops Digit after) :
    (mk (whole ++ '.' :: fraction ++ after) offset).number =
      (.ok ⟨.number (.float (Binary64.ofMagnitude (Binary64.ofDecimal (Decimal.ofDigits whole fraction)))),
          ⟨offset, offset + (whole ++ '.' :: fraction).length⟩⟩,
        ⟨after, offset + (whole ++ '.' :: fraction).length⟩) := by
  have point := pointStops (fraction ++ after)
  have some : ¬ fraction.isEmpty = true := fun empty => right.1 (List.isEmpty_iff.mp empty)
  have length : whole.length + 1 + fraction.length = (whole ++ '.' :: fraction).length := by
    rw [List.length_append, List.length_cons]
    omega
  have regroup : whole ++ '.' :: fraction ++ after = whole ++ '.' :: (fraction ++ after) := by simp
  have drop : (whole ++ '.' :: (fraction ++ after)).drop (whole ++ '.' :: fraction).length = after := by
    rw [← regroup, List.drop_left]
  rw [regroup]
  simp only [number, takeRun (fun _ => isDigitIff) left.2 point,
    dropRun (fun _ => isDigitIff) left.2 point, fractionOf,
    takeRun (fun _ => isDigitIff) right.2 stop, some, emit, advance, length, drop]
  rfl

/-! The cursor reads a lexeme as its token and reports an offence. -/

theorem nextLexeme {kind : TokenKind} (lexeme : Lexeme text after kind) :
    (mk (text ++ after) offset).next =
      (.ok ⟨kind, ⟨offset, offset + text.length⟩⟩, ⟨after, offset + text.length⟩) := by
  cases lexeme with
  | keyword stop => exact (nextLetter (by decide)).trans (wordRead offset keywordWord stop)
  | name word other stop =>
    have name : TokenKind.ofWord (String.ofList text) = .identifier (String.ofList text) := by
      refine if_neg fun same => other ?_
      rw [← String.toList_ofList (l := text), same]
    have read := wordRead offset word stop
    obtain ⟨first, more, rfl, letter, _⟩ := word
    rw [name] at read
    exact (nextLetter letter).trans read
  | integer digits value stop noFraction =>
    have read := integerRead offset digits value stop noFraction
    obtain ⟨first, more, rfl, digit⟩ := digits.head
    exact (nextDigit digit).trans read
  | float left right stop =>
    have read := floatRead offset left right stop
    obtain ⟨first, more, rfl, digit⟩ := left.head
    exact (nextDigit digit).trans read
  | symbol listed =>
    obtain ⟨blank, part⟩ := symbolOther listed
    rw [List.singleton_append, nextOther blank part, ofSymbolIff.mpr listed]
    rfl

theorem nextOffence {e : LexError} (offence : Offence offset rest e) :
    (mk rest offset).next.1 = .error e := by
  cases offence with
  | character blank part unlisted =>
    have none : TokenKind.ofSymbol? _ = none := Option.eq_none_iff_forall_ne_some.mpr fun kind found =>
      unlisted kind (ofSymbolIff.mp found)
    rw [nextOther blank part, none]
  | number all stop noFraction large =>
    have read := largeRead offset all large stop noFraction
    obtain ⟨first, more, rfl, digit⟩ := all.head
    rw [List.cons_append, nextDigit digit, ← List.cons_append, read]

end Cursor

theorem Lexeme.head {text after : List Char} {kind : TokenKind} (lexeme : Lexeme text after kind) :
    ∃ first more, text = first :: more ∧ ¬ Blank first := by
  cases lexeme with
  | keyword stop => exact ⟨'f', "unction".toList, rfl, partNotBlank (by decide)⟩
  | name word other stop =>
    obtain ⟨first, more, rfl, letter, _⟩ := word
    exact ⟨first, more, rfl, partNotBlank (.inl letter)⟩
  | integer digits value stop noFraction =>
    obtain ⟨first, more, rfl, digit⟩ := digits.head
    exact ⟨first, more, rfl, partNotBlank (.inr digit)⟩
  | float left right stop =>
    obtain ⟨first, more, rfl, digit⟩ := left.head
    exact ⟨first, _, rfl, partNotBlank (.inr digit)⟩
  | symbol listed => exact ⟨_, [], rfl, (symbolOther listed).1⟩

theorem Lexeme.kindMore {text after : List Char} {kind : TokenKind} (lexeme : Lexeme text after kind) :
    kind ≠ .endOfInput := by
  cases lexeme with
  | symbol listed =>
    rintro rfl
    simp [symbols] at listed
  | _ => simp

theorem Lexeme.behind {text after other : List Char} {kind : TokenKind} (lexeme : Lexeme text after kind)
    (word : Stops WordPart after → Stops WordPart other) (digit : Stops Digit after → Stops Digit other)
    (point : NoFraction after → NoFraction other) : Lexeme text other kind := by
  cases lexeme with
  | keyword stop => exact .keyword (word stop)
  | name whole different stop => exact .name whole different (word stop)
  | integer digits value stop noFraction => exact .integer digits value (digit stop) (point noFraction)
  | float left right stop => exact .float left right (digit stop)
  | symbol listed => exact .symbol listed

theorem integerValue {n : Nat} (small : n ≤ Int64.maxValue.toInt) : (Int64.ofNat n).toInt = n := by
  have bound : Int64.maxValue.toInt < 2 ^ 63 := by decide
  exact Int64.toInt_ofNat_of_lt (by omega)

theorem digitsBegin {first : Char} (digit : Digit first) (rest : List Char) (offset : Nat) :
    (∃ text after kind, first :: rest = text ++ after ∧ Lexeme text after kind) ∨
      ∃ e, Offence offset (first :: rest) e := by
  obtain ⟨more, after, rfl, all, stop⟩ := splitRun Digit rest
  have digits : IsDigits (first :: more) := ⟨List.cons_ne_nil _ _, List.forall_mem_cons.mpr ⟨digit, all⟩⟩
  by_cases noFraction : NoFraction after
  · by_cases large : Int64.maxValue.toInt < digitsValue (first :: more)
    · exact .inr ⟨_, .number digits stop noFraction large⟩
    · have value := integerValue (Int.not_lt.mp large)
      exact .inl ⟨first :: more, after, _, rfl, .integer digits value stop noFraction⟩
  · simp only [NoFraction, not_forall, not_not] at noFraction
    obtain ⟨c, rest, rfl, right⟩ := noFraction
    obtain ⟨fraction, after, rfl, all, stop⟩ := splitRun Digit rest
    have fractional : IsDigits (c :: fraction) :=
      ⟨List.cons_ne_nil _ _, List.forall_mem_cons.mpr ⟨right, all⟩⟩
    refine .inl ⟨first :: more ++ '.' :: (c :: fraction), after, _, ?_, .float digits fractional stop⟩
    simp

theorem letterBegins {first : Char} (letter : Letter first) (rest : List Char) :
    ∃ text after kind, first :: rest = text ++ after ∧ Lexeme text after kind := by
  obtain ⟨more, after, rfl, parts, stop⟩ := splitRun WordPart rest
  by_cases same : first :: more = "function".toList
  · exact ⟨_, after, _, congrArg (· ++ after) same, .keyword stop⟩
  · exact ⟨first :: more, after, _, rfl, .name ⟨first, more, rfl, letter, parts⟩ same stop⟩

theorem Offence.stops {offset : Nat} {text : List Char} {e : LexError} (offence : Offence offset text e) :
    Stops Blank text := by
  cases offence with
  | character blank part unlisted => exact stopsCons blank _
  | number all stop noFraction large =>
    obtain ⟨first, more, rfl, digit⟩ := all.head
    exact stopsCons (partNotBlank (.inr digit)) _

theorem beginsSomehow {first : Char} (blank : ¬ Blank first) (rest : List Char) (offset : Nat) :
    (∃ text after kind, first :: rest = text ++ after ∧ Lexeme text after kind) ∨
      ∃ e, Offence offset (first :: rest) e := by
  by_cases part : WordPart first
  · rcases part with letter | digit
    · exact .inl (letterBegins letter rest)
    · exact digitsBegin digit rest offset
  · by_cases listed : ∃ kind, (first, kind) ∈ symbols
    · obtain ⟨kind, listed⟩ := listed
      exact .inl ⟨[first], rest, kind, rfl, .symbol listed⟩
    · exact .inr ⟨_, .character blank part fun kind mem => listed ⟨kind, mem⟩⟩

theorem scanOrBroken (offset : Nat) (source : List Char) :
    (∃ tokens, Scan offset source tokens) ∨ ∃ e, Broken offset source e := by
  obtain ⟨gap, rest, split, blank, stop⟩ := splitRun Blank source
  cases rest with
  | nil =>
    rw [split, List.append_nil]
    exact .inl ⟨_, .last blank⟩
  | cons first rest =>
    rcases beginsSomehow (stop first rfl) rest (offset + gap.length) with
      ⟨text, after, kind, same, lexeme⟩ | ⟨e, offence⟩
    · rw [same] at split
      have shorter : after.length < source.length := by
        obtain ⟨c, more, rfl, _⟩ := lexeme.head
        rw [split, List.length_append, List.length_append, List.length_cons]
        omega
      rw [split]
      rcases scanOrBroken (offset + gap.length + text.length) after with ⟨tokens, later⟩ | ⟨e, inner⟩
      · exact .inl ⟨_, .next blank lexeme later⟩
      · exact .inr ⟨e, .later blank lexeme inner⟩
    · rw [split]
      exact .inr ⟨e, .here blank offence⟩
termination_by source.length
decreasing_by exact shorter

namespace Cursor

variable {offset : Nat} {text : List Char} {tokens : List Token} {e : LexError}

theorem nextSeparated {gap after : List Char} {kind : TokenKind} (blank : ∀ c ∈ gap, Blank c)
    (lexeme : Lexeme text after kind) :
    (mk (gap ++ (text ++ after)) offset).next =
      (.ok ⟨kind, ⟨offset + gap.length, offset + gap.length + text.length⟩⟩,
        ⟨after, offset + gap.length + text.length⟩) := by
  obtain ⟨first, more, rfl, other⟩ := lexeme.head
  have stop : Stops Blank (first :: more ++ after) := stopsCons other _
  rw [nextGap blank stop, nextLexeme lexeme]

theorem readOnScan (scan : Scan offset text tokens) (read : List Token) :
    (mk text offset).readOn read = ⟨read.reverse ++ tokens, none, ⟨[], offset + text.length⟩⟩ := by
  induction scan generalizing read with
  | last blank =>
    rw [readOn, nextEnd blank]
    simp
  | next blank lexeme later ih =>
    rw [readOn, nextSeparated blank lexeme]
    simp only [lexeme.kindMore, ih]
    simp [Nat.add_assoc]

theorem readOnBroken (broken : Broken offset text e) (read : List Token) :
    ((mk text offset).readOn read).error = some e := by
  induction broken generalizing read with
  | here blank offence =>
    have failed := nextOffence offence
    rw [← nextGap blank offence.stops] at failed
    rw [readOn]
    split
    · rename_i found
      rw [found] at failed
      cases failed
      rfl
    · rename_i found
      rw [found] at failed
      cases failed
  | later blank lexeme inner ih =>
    rw [readOn, nextSeparated blank lexeme]
    simp only [lexeme.kindMore]
    exact ih _

end Cursor

theorem tokenizeScan {source : String} {tokens : List Token} (scan : Scan 0 source.toList tokens) :
    tokenize source = .ok tokens := by
  rw [tokenize, Cursor.readAll, Cursor.ofSource, Cursor.readOnScan scan]
  rfl

theorem tokenizeBroken {source : String} {e : LexError} (broken : Broken 0 source.toList e) :
    tokenize source = .error e := by
  simp only [tokenize, Cursor.readAll, Cursor.ofSource, Cursor.readOnBroken broken]

theorem tokenizeOkIff {source : String} {tokens : List Token} :
    tokenize source = .ok tokens ↔ Scan 0 source.toList tokens := by
  refine ⟨fun read => ?_, tokenizeScan⟩
  rcases scanOrBroken 0 source.toList with ⟨others, scan⟩ | ⟨e, broken⟩
  · cases read.symm.trans (tokenizeScan scan)
    exact scan
  · cases read.symm.trans (tokenizeBroken broken)

theorem tokenizeErrorIff {source : String} {e : LexError} :
    tokenize source = .error e ↔ Broken 0 source.toList e := by
  refine ⟨fun failed => ?_, tokenizeBroken⟩
  rcases scanOrBroken 0 source.toList with ⟨tokens, scan⟩ | ⟨other, broken⟩
  · cases failed.symm.trans (tokenizeScan scan)
  · cases failed.symm.trans (tokenizeBroken broken)
    exact broken

end CalcLang
