import CalcLang.Proofs.Basic
import CalcLang.Proofs.Lexemes

/-! Where tokens stand. The spans of the tokens of a source are slices of it, in order and apart,
each as long as it can be, and only blanks are left between them. Characters outside ASCII are in
no token and are no blanks, so the offsets that a cursor counts in characters are byte offsets. -/
namespace CalcLang

section Runs

variable {α : Type} {belongs : α → Prop} {text after longer rest : List α}

theorem runLongest (stop : ∀ c ∈ after.head?, ¬ belongs c) (all : ∀ c ∈ longer, belongs c)
    (same : text ++ after = longer ++ rest) : longer.length ≤ text.length := by
  rcases List.append_eq_append_iff.mp same with ⟨extra, rfl, rfl⟩ | ⟨extra, rfl, rfl⟩
  · cases extra with
    | nil => rw [List.append_nil]
    | cons c extra => exact absurd (all c (by simp)) (stop c rfl)
  · rw [List.length_append]
    omega

theorem runUnique (first : ∀ c ∈ text, belongs c) (stop : ∀ c ∈ after.head?, ¬ belongs c)
    (second : ∀ c ∈ longer, belongs c) (other : ∀ c ∈ rest.head?, ¬ belongs c)
    (same : text ++ after = longer ++ rest) : text = longer ∧ after = rest := by
  have shorter := runLongest other first same.symm
  have longer := runLongest stop second same
  exact List.append_inj same (by omega)

end Runs

section Longest

variable {text after longer rest : List Char}

def IsRun (text : List Char) : Prop := IsWord text ∨ IsDigits text ∨ IsFraction text

theorem IsFraction.head (fraction : IsFraction text) :
    ∃ first more, text = first :: more ∧ Digit first := by
  obtain ⟨whole, digits, rfl, left, _⟩ := fraction
  obtain ⟨first, more, rfl, digit⟩ := left.head
  exact ⟨first, _, rfl, digit⟩

theorem IsRun.head (run : IsRun text) : ∃ first more, text = first :: more ∧ WordPart first := by
  rcases run with ⟨first, more, rfl, letter, _⟩ | digits | fraction
  · exact ⟨first, more, rfl, .inl letter⟩
  · obtain ⟨first, more, rfl, digit⟩ := digits.head
    exact ⟨first, more, rfl, .inr digit⟩
  · obtain ⟨first, more, rfl, digit⟩ := fraction.head
    exact ⟨first, more, rfl, .inr digit⟩

theorem wordLongest (word : IsWord text) (stop : Stops WordPart after) (run : IsRun longer)
    (same : text ++ after = longer ++ rest) : longer.length ≤ text.length := by
  obtain ⟨first, more, rfl, letter, parts⟩ := word
  rcases run with ⟨other, others, rfl, start, all⟩ | digits | fraction
  · exact runLongest stop (List.forall_mem_cons.mpr ⟨.inl start, all⟩) same
  · exact runLongest stop (fun c mem => .inr (digits.2 c mem)) same
  · obtain ⟨other, others, rfl, digit⟩ := fraction.head
    obtain rfl := (List.cons.inj same).1
    exact absurd digit (letterNotDigit letter)

theorem notWord {first : Char} {more : List Char} (digit : Digit first)
    (same : first :: more = longer ++ rest) : ¬ IsWord longer := by
  rintro ⟨other, others, rfl, letter, _⟩
  obtain rfl := (List.cons.inj same).1
  exact letterNotDigit letter digit

theorem integerLongest (digits : IsDigits text) (stop : Stops Digit after)
    (noFraction : NoFraction after) (run : IsRun longer) (same : text ++ after = longer ++ rest) :
    longer.length ≤ text.length := by
  obtain ⟨first, more, rfl, digit⟩ := digits.head
  rcases run with word | others | ⟨whole, fraction, rfl, left, right⟩
  · exact absurd word (notWord digit same)
  · exact runLongest stop others.2 same
  · -- the digits before the point are those of the integer, so the point stands behind it
    rw [List.append_assoc] at same
    obtain ⟨_, rfl⟩ := runUnique digits.2 stop left.2 (pointStops _) same
    obtain ⟨c, others, rfl, digit⟩ := right.head
    exact absurd digit (noFraction c _ rfl)

theorem floatLongest {whole fraction : List Char} (left : IsDigits whole) (stop : Stops Digit after)
    (run : IsRun longer)
    (same : whole ++ '.' :: fraction ++ after = longer ++ rest) :
    longer.length ≤ (whole ++ '.' :: fraction).length := by
  obtain ⟨first, more, rfl, digit⟩ := left.head
  rw [List.append_assoc] at same
  rcases run with word | others | ⟨whole, others, rfl, first, second⟩
  · exact absurd word (notWord digit same)
  · have bounded := runLongest (pointStops _) others.2 same
    rw [List.length_append]
    omega
  · rw [List.append_assoc] at same
    obtain ⟨rfl, behind⟩ := runUnique left.2 (pointStops _) first.2 (pointStops _) same
    have bounded := runLongest stop second.2 (List.cons.inj behind).2
    simp only [List.length_append, List.length_cons]
    omega

theorem Lexeme.longest {kind : TokenKind} (lexeme : Lexeme text after kind) (run : IsRun longer)
    (same : text ++ after = longer ++ rest) : longer.length ≤ text.length := by
  cases lexeme with
  | keyword stop => exact wordLongest keywordWord stop run same
  | name word other stop => exact wordLongest word stop run same
  | integer digits value stop noFraction => exact integerLongest digits stop noFraction run same
  | float left right stop => exact floatLongest left stop run same
  | symbol listed =>
    obtain ⟨first, more, rfl, part⟩ := run.head
    obtain rfl := (List.cons.inj same).1
    exact absurd part (symbolOther listed).2

theorem Lexeme.alone {kind : TokenKind} (lexeme : Lexeme text after kind) : Lexeme text [] kind :=
  lexeme.behind (fun _ => stopsNil WordPart) (fun _ => stopsNil Digit) fun _ => by simp [NoFraction]

theorem Lexeme.kindUnique {kind other : TokenKind} (lexeme : Lexeme text after kind)
    (twin : Lexeme text rest other) : other = kind := by
  have read : (Cursor.mk (text ++ []) 0).next = _ := Cursor.nextLexeme lexeme.alone
  rw [Cursor.nextLexeme twin.alone] at read
  cases read
  rfl

end Longest

/-! Which bytes a text is made of. -/

section Bytes

variable {text after : List Char}

theorem wordPartAscii {c : Char} (part : WordPart c) : c.utf8Size = 1 := by
  rw [Char.utf8Size_eq_one_iff]
  rcases part with (⟨_, high⟩ | ⟨_, high⟩ | rfl) | ⟨_, high⟩
  · exact UInt32.le_trans high (by decide)
  · exact UInt32.le_trans high (by decide)
  · decide
  · exact UInt32.le_trans high (by decide)

theorem blankAscii {c : Char} (blank : Blank c) : c.utf8Size = 1 := by
  rcases blank with rfl | rfl | rfl <;> rfl

theorem wordAscii (word : IsWord text) : ∀ c ∈ text, c.utf8Size = 1 := by
  obtain ⟨first, more, rfl, letter, parts⟩ := word
  exact fun c mem => wordPartAscii (List.forall_mem_cons.mpr ⟨.inl letter, parts⟩ c mem)

theorem Lexeme.ascii {kind : TokenKind} (lexeme : Lexeme text after kind) :
    ∀ c ∈ text, c.utf8Size = 1 := by
  cases lexeme with
  | keyword stop => exact wordAscii keywordWord
  | name word other stop => exact wordAscii word
  | integer digits value stop noFraction => exact fun c mem => wordPartAscii (.inr (digits.2 c mem))
  | float left right stop =>
    intro c mem
    rcases List.mem_append.mp mem with mem | mem
    · exact wordPartAscii (.inr (left.2 c mem))
    · rcases List.mem_cons.mp mem with rfl | mem
      · rfl
      · exact wordPartAscii (.inr (right.2 c mem))
  | symbol listed =>
    have single : ∀ s ∈ symbols, s.1.utf8Size = 1 := by decide
    exact List.forall_mem_singleton.mpr (single _ listed)

theorem asciiBytes (ascii : ∀ c ∈ text, c.utf8Size = 1) :
    (String.ofList text).toByteArray.data.toList = text.map fun c => c.val.toUInt8 := by
  have each : text.flatMap String.utf8EncodeChar = text.map fun c => c.val.toUInt8 := by
    induction text with
    | nil => rfl
    | cons c rest ih =>
      rw [List.flatMap_cons, List.map_cons, ih fun d mem => ascii d (List.mem_cons_of_mem _ mem),
        String.utf8EncodeChar_eq_singleton (ascii c List.mem_cons_self), List.singleton_append]
  rw [String.toByteArray_ofList, List.utf8Encode, each, List.data_toByteArray]

theorem asciiSize (ascii : ∀ c ∈ text, c.utf8Size = 1) :
    (String.ofList text).utf8ByteSize = text.length := by
  have bytes := congrArg List.length (asciiBytes ascii)
  rwa [List.length_map, Array.length_toList] at bytes

end Bytes

namespace Scan

variable {offset : Nat} {source : List Char} {tokens : List Token}

theorem ascii (scan : Scan offset source tokens) : ∀ c ∈ source, c.utf8Size = 1 := by
  induction scan with
  | last blank => exact fun c mem => blankAscii (blank c mem)
  | next blank lexeme later ih =>
    intro c mem
    rcases List.mem_append.mp mem with mem | mem
    · exact blankAscii (blank c mem)
    · exact (List.mem_append.mp mem).elim (lexeme.ascii c) (ih c)

theorem ends (scan : Scan offset source tokens) :
    ∃ body, tokens = body ++ [⟨.endOfInput, ⟨offset + source.length, offset + source.length⟩⟩] ∧
      ∀ t ∈ body, ∃ before text after, source = before ++ (text ++ after) ∧
        t.span = ⟨offset + before.length, offset + before.length + text.length⟩ ∧
        Lexeme text after t.kind := by
  induction scan with
  | last blank => exact ⟨[], rfl, List.forall_mem_nil _⟩
  | @next offset gap text after kind tokens blank lexeme later ih =>
    obtain ⟨body, rfl, each⟩ := ih
    refine ⟨⟨kind, ⟨offset + gap.length, offset + gap.length + text.length⟩⟩ :: body, ?_,
      List.forall_mem_cons.mpr ⟨⟨gap, text, after, rfl, rfl, lexeme⟩, ?_⟩⟩
    · simp only [List.length_append, Nat.add_assoc, List.cons_append]
    · intro t mem
      obtain ⟨before, inner, rest, rfl, span, inside⟩ := each t mem
      refine ⟨gap ++ (text ++ before), inner, rest, by simp only [List.append_assoc], ?_, inside⟩
      simp only [span, List.length_append, Nat.add_assoc]

theorem startsAfter (scan : Scan offset source tokens) : ∀ t ∈ tokens, offset ≤ t.span.start := by
  induction scan with
  | last blank => exact List.forall_mem_singleton.mpr (Nat.le_add_right _ _)
  | next blank lexeme later ih =>
    refine List.forall_mem_cons.mpr ⟨Nat.le_add_right _ _, fun t mem => ?_⟩
    have behind := ih t mem
    omega

theorem apart (scan : Scan offset source tokens) :
    tokens.Pairwise fun t u => t.span.stop ≤ u.span.start := by
  induction scan with
  | last blank => exact List.pairwise_singleton _ _
  | next blank lexeme later ih => exact List.pairwise_cons.mpr ⟨later.startsAfter, ih⟩

theorem blankBetween (scan : Scan offset source tokens) {i : Nat} {c : Char} (here : source[i]? = some c)
    (outside : ∀ t ∈ tokens, ¬ (t.span.start ≤ offset + i ∧ offset + i < t.span.stop)) : Blank c := by
  induction scan generalizing i with
  | last blank => exact blank c (List.mem_of_getElem? here)
  | @next offset gap text after kind tokens blank lexeme later ih =>
    obtain ⟨notFirst, notLater⟩ := List.forall_mem_cons.mp outside
    by_cases before : i < gap.length
    · rw [List.getElem?_append_left before] at here
      exact blank c (List.mem_of_getElem? here)
    · have behind : gap.length + text.length ≤ i := by
        simp only at notFirst
        omega
      rw [List.getElem?_append_right (by omega), List.getElem?_append_right (by omega)] at here
      refine ih here fun t mem inside => notLater t mem ?_
      have place : offset + gap.length + text.length + (i - gap.length - text.length) = offset + i := by
        omega
      rwa [place] at inside

end Scan

/-- The token is what a slice of the source spells, and its span is where the slice stands. -/
structure Spells (source before text after : String) (t : Token) : Prop where
  split : source = before ++ text ++ after
  start : t.span.start = before.utf8ByteSize
  stop : t.span.stop = (before ++ text).utf8ByteSize
  lexeme : Lexeme text.toList after.toList t.kind

structure Faithful (source : String) (body : List Token) : Prop where
  kinds : ∀ t ∈ body, t.kind ≠ .endOfInput
  nonempty : ∀ t ∈ body, t.span.start < t.span.stop
  apart : body.Pairwise fun t u => t.span.stop ≤ u.span.start
  blank : ∀ i byte, source.toByteArray.data[i]? = some byte →
    (∀ t ∈ body, ¬ (t.span.start ≤ i ∧ i < t.span.stop)) → byte = 32 ∨ byte = 9 ∨ byte = 13
  spelled : ∀ t ∈ body, ∃ before text after, Spells source before text after t ∧
    (∀ behind kind, Lexeme text.toList behind kind → kind = t.kind) ∧
    ∀ longer rest, text ++ after = longer ++ rest → IsRun longer.toList → longer.length ≤ text.length

section Source

variable {source : String} {tokens body : List Token} {t : Token}

theorem sourceSize (scan : Scan 0 source.toList tokens) : source.utf8ByteSize = source.toList.length := by
  rw [← asciiSize scan.ascii, String.ofList_toList]

theorem sourceByte (scan : Scan 0 source.toList tokens) {i : Nat} {byte : UInt8}
    (here : source.toByteArray.data[i]? = some byte) :
    ∃ c, source.toList[i]? = some c ∧ c.val.toUInt8 = byte := by
  have bytes := asciiBytes scan.ascii
  rw [String.ofList_toList] at bytes
  rw [← Array.getElem?_toList, bytes, List.getElem?_map] at here
  exact Option.map_eq_some_iff.mp here

theorem blankByte {c : Char} (blank : Blank c) :
    c.val.toUInt8 = 32 ∨ c.val.toUInt8 = 9 ∨ c.val.toUInt8 = 13 := by
  rcases blank with rfl | rfl | rfl
  · exact .inl rfl
  · exact .inr (.inl rfl)
  · exact .inr (.inr rfl)

theorem spellsSlice (scan : Scan 0 source.toList tokens) {before text after : List Char}
    (split : source.toList = before ++ (text ++ after))
    (span : t.span = ⟨0 + before.length, 0 + before.length + text.length⟩)
    (lexeme : Lexeme text after t.kind) :
    Spells source (String.ofList before) (String.ofList text) (String.ofList after) t := by
  have ascii := scan.ascii
  rw [split, List.forall_mem_append] at ascii
  have left := asciiSize ascii.1
  have right := asciiSize lexeme.ascii
  refine ⟨?_, ?_, ?_, ?_⟩
  · rw [← String.ofList_append, ← String.ofList_append, List.append_assoc, ← split, String.ofList_toList]
  · rw [span, left, Nat.zero_add]
  · rw [span, String.utf8ByteSize_append, left, right, Nat.zero_add]
  · rwa [String.toList_ofList, String.toList_ofList]

theorem blankOutside {stop : Nat} (scan : Scan 0 source.toList (body ++ [⟨.endOfInput, ⟨stop, stop⟩⟩]))
    {i : Nat} {byte : UInt8} (here : source.toByteArray.data[i]? = some byte)
    (outside : ∀ t ∈ body, ¬ (t.span.start ≤ i ∧ i < t.span.stop)) :
    byte = 32 ∨ byte = 9 ∨ byte = 13 := by
  obtain ⟨c, place, rfl⟩ := sourceByte scan here
  refine blankByte (scan.blankBetween place fun t mem inside => ?_)
  rw [Nat.zero_add] at inside
  rcases List.mem_append.mp mem with mem | mem
  · exact outside t mem inside
  · -- the span of the end token is empty
    obtain rfl := List.mem_singleton.mp mem
    simp only at inside
    omega

theorem sliceLongest {text after longer rest : String} {kind : TokenKind}
    (lexeme : Lexeme text.toList after.toList kind) (same : text ++ after = longer ++ rest)
    (run : IsRun longer.toList) : longer.length ≤ text.length := by
  have lists := congrArg String.toList same
  rw [String.toList_append, String.toList_append] at lists
  rw [← String.length_toList, ← String.length_toList]
  exact lexeme.longest run lists

end Source

theorem tokenizeFaithful {source : String} {tokens : List Token} (read : tokenize source = .ok tokens) :
    ∃ body, Faithful source body ∧
      tokens = body ++ [⟨.endOfInput, ⟨source.utf8ByteSize, source.utf8ByteSize⟩⟩] := by
  have scan := tokenizeOkIff.mp read
  obtain ⟨body, rfl, each⟩ := scan.ends
  refine ⟨body, ⟨fun t mem => ?_, fun t mem => ?_, (List.pairwise_append.mp scan.apart).1,
    fun i byte => blankOutside scan, fun t mem => ?_⟩, by rw [sourceSize scan, Nat.zero_add]⟩
  · obtain ⟨_, _, _, _, _, lexeme⟩ := each t mem
    exact lexeme.kindMore
  · obtain ⟨_, _, _, _, span, lexeme⟩ := each t mem
    obtain ⟨_, _, rfl, _⟩ := lexeme.head
    rw [span, List.length_cons]
    exact Nat.lt_add_of_pos_right (Nat.succ_pos _)
  · obtain ⟨before, text, after, split, span, lexeme⟩ := each t mem
    have spells := spellsSlice scan split span lexeme
    exact ⟨_, _, _, spells, fun behind kind => spells.lexeme.kindUnique,
      fun longer rest => sliceLongest spells.lexeme⟩

theorem tokenizeFaithfulAssignment :
    tokenize "a1\t= 07.50\r" = .ok [⟨.identifier "a1", ⟨0, 2⟩⟩, ⟨.assign, ⟨3, 4⟩⟩,
        ⟨.number (.float 7.5), ⟨5, 10⟩⟩, ⟨.endOfInput, ⟨11, 11⟩⟩] ∧
      Faithful "a1\t= 07.50\r" [⟨.identifier "a1", ⟨0, 2⟩⟩, ⟨.assign, ⟨3, 4⟩⟩,
        ⟨.number (.float 7.5), ⟨5, 10⟩⟩] := by
  have read : tokenize "a1\t= 07.50\r" = .ok [⟨.identifier "a1", ⟨0, 2⟩⟩, ⟨.assign, ⟨3, 4⟩⟩,
      ⟨.number (.float 7.5), ⟨5, 10⟩⟩, ⟨.endOfInput, ⟨11, 11⟩⟩] := by decide +kernel
  obtain ⟨body, faithful, same⟩ := tokenizeFaithful read
  have front := congrArg List.dropLast same
  rw [List.dropLast_concat] at front
  subst front
  exact ⟨read, faithful⟩

end CalcLang
