import CalcLang.Proofs.Spans
import Mathlib.Data.List.Chain

/-! Lexemes written down. Blanks may stand anywhere between lexemes and are needed only where two
of them would be read as one: behind a word before a word or a number, and between two numbers. A
source that is written so is read as the tokens of its lexemes, each where it was written. -/
namespace CalcLang

inductive Spelling where
  | name (text : String) (word : IsWord text.toList) (other : text ≠ "function")
  | keyword
  | integer (digits : String) (all : IsDigits digits.toList)
      (small : digitsValue digits.toList ≤ Int64.maxValue.toInt)
  | float (whole fraction : String) (left : IsDigits whole.toList) (right : IsDigits fraction.toList)
  | symbol (c : Char) (kind : TokenKind) (listed : (c, kind) ∈ symbols)

namespace Spelling

def text : Spelling → String
  | name text _ _ => text
  | keyword => "function"
  | integer digits _ _ => digits
  | float whole fraction _ _ => whole ++ "." ++ fraction
  | symbol c _ _ => String.singleton c

def kind : Spelling → TokenKind
  | name text _ _ => .identifier text
  | keyword => .function
  | integer digits _ _ => .number (.int (Int64.ofNat (digitsValue digits.toList)))
  | float whole fraction _ _ =>
    .number (.float (Binary64.ofMagnitude (Binary64.ofDecimal
      (Decimal.ofDigits whole.toList fraction.toList))))
  | symbol _ kind _ => kind

def IsName : Spelling → Prop
  | name _ _ _ => True
  | keyword => True
  | _ => False

def IsNumber : Spelling → Prop
  | integer _ _ _ => True
  | float _ _ _ _ => True
  | _ => False

/-- The second lexeme right behind the first one would be read as a part of it. -/
def Merges (s t : Spelling) : Prop := s.IsName ∧ (t.IsName ∨ t.IsNumber) ∨ s.IsNumber ∧ t.IsNumber

def Ended (s : Spelling) (after : List Char) : Prop :=
  ∀ c ∈ after.head?, (s.IsName → ¬ WordPart c) ∧ (s.IsNumber → ¬ Digit c ∧ c ≠ '.')

theorem endedName {s : Spelling} {after : List Char} (ended : s.Ended after) (name : s.IsName) :
    Stops WordPart after := fun c head => (ended c head).1 name

theorem endedNumber {s : Spelling} {after : List Char} (ended : s.Ended after) (number : s.IsNumber) :
    Stops Digit after ∧ NoFraction after := by
  constructor
  · exact fun c head => ((ended c head).2 number).1
  · intro c rest point
    rw [point] at ended
    exact absurd rfl ((ended '.' rfl).2 number).2

theorem lexeme {s : Spelling} {after : List Char} (ended : s.Ended after) :
    Lexeme s.text.toList after s.kind := by
  cases s with
  | name text word other =>
    have different : text.toList ≠ "function".toList := fun same => other (String.toList_inj.mp same)
    have read : Lexeme text.toList after _ := .name word different (endedName ended trivial)
    rwa [String.ofList_toList] at read
  | keyword => exact .keyword (endedName ended trivial)
  | integer digits all small =>
    obtain ⟨stop, noFraction⟩ := endedNumber ended trivial
    exact .integer all (integerValue small) stop noFraction
  | float whole fraction left right =>
    have read : Lexeme _ after _ := .float left right (endedNumber ended trivial).1
    have spelled : (whole ++ "." ++ fraction).toList = whole.toList ++ '.' :: fraction.toList := by
      rw [String.toList_append, String.toList_append, List.append_assoc]
      rfl
    rwa [← spelled] at read
  | symbol c kind listed =>
    rw [text, String.toList_singleton]
    exact .symbol listed

theorem endedBlank (s : Spelling) {c : Char} (blank : Blank c) (rest : List Char) :
    s.Ended (c :: rest) := by
  intro d head
  cases head
  have other : ¬ WordPart c := (blankOther blank).1
  refine ⟨fun _ => other, fun _ => ⟨fun digit => other (.inr digit), ?_⟩⟩
  rcases blank with rfl | rfl | rfl <;> decide

theorem begins (s : Spelling) : ∃ first more, s.text.toList = first :: more ∧
    (s.IsName ∧ Letter first ∨ s.IsNumber ∧ Digit first ∨ ∃ kind, (first, kind) ∈ symbols) := by
  cases s with
  | name text word other =>
    obtain ⟨first, more, same, letter, _⟩ := word
    exact ⟨first, more, same, .inl ⟨trivial, letter⟩⟩
  | keyword => exact ⟨'f', "unction".toList, rfl, .inl ⟨trivial, by decide⟩⟩
  | integer digits all small =>
    obtain ⟨first, more, same, digit⟩ := all.head
    exact ⟨first, more, same, .inr (.inl ⟨trivial, digit⟩)⟩
  | float whole fraction left right =>
    obtain ⟨first, more, same, digit⟩ := left.head
    refine ⟨first, more ++ ("." ++ fraction).toList, ?_, .inr (.inl ⟨trivial, digit⟩)⟩
    rw [text, String.append_assoc, String.toList_append, same, List.cons_append]
  | symbol c kind listed => exact ⟨c, [], String.toList_singleton c, .inr (.inr ⟨kind, listed⟩)⟩

theorem endedSpelling {s t : Spelling} (apart : ¬ s.Merges t) (rest : List Char) :
    s.Ended (t.text.toList ++ rest) := by
  obtain ⟨first, more, same, start⟩ := t.begins
  rw [same]
  intro c head
  cases head
  rcases start with ⟨name, letter⟩ | ⟨number, digit⟩ | ⟨kind, listed⟩
  · refine ⟨fun before => absurd (.inl ⟨before, .inl name⟩) apart, fun _ => ⟨letterNotDigit letter, ?_⟩⟩
    intro point
    rw [point] at letter
    exact absurd letter (by decide)
  · exact ⟨fun before => absurd (.inl ⟨before, .inr number⟩) apart,
      fun before => absurd (.inr ⟨before, number⟩) apart⟩
  · have other := (symbolOther listed).2
    refine ⟨fun _ => other, fun _ => ⟨fun digit => other (.inr digit), ?_⟩⟩
    intro point
    rw [point] at listed
    simp [symbols] at listed

theorem size (s : Spelling) : s.text.utf8ByteSize = s.text.toList.length := by
  have alone : s.Ended [] := fun c head => by cases head
  rw [← asciiSize (lexeme alone).ascii, String.ofList_toList]

end Spelling

structure Piece where
  gap : String
  blank : ∀ c ∈ gap.toList, Blank c
  lexeme : Spelling

def Piece.Apart (p q : Piece) : Prop := p.lexeme.Merges q.lexeme → q.gap ≠ ""

structure Layout where
  pieces : List Piece
  apart : pieces.IsChain Piece.Apart
  last : String
  blank : ∀ c ∈ last.toList, Blank c

namespace Layout

def write (last : String) : List Piece → String
  | [] => last
  | p :: rest => p.gap ++ p.lexeme.text ++ write last rest

def place (last : String) (offset : Nat) : List Piece → List Token
  | [] => [⟨.endOfInput, ⟨offset + last.utf8ByteSize, offset + last.utf8ByteSize⟩⟩]
  | p :: rest =>
    let start := offset + p.gap.utf8ByteSize
    let stop := start + p.lexeme.text.utf8ByteSize
    ⟨p.lexeme.kind, ⟨start, stop⟩⟩ :: place last stop rest

def source (l : Layout) : String := write l.last l.pieces

def tokens (l : Layout) : List Token := place l.last 0 l.pieces

theorem blankSize {gap : String} (blank : ∀ c ∈ gap.toList, Blank c) :
    gap.utf8ByteSize = gap.toList.length := by
  rw [← asciiSize fun c mem => blankAscii (blank c mem), String.ofList_toList]

theorem endedGap (s : Spelling) {gap : String} (blank : ∀ c ∈ gap.toList, Blank c) (some : gap ≠ "")
    (rest : List Char) : s.Ended (gap.toList ++ rest) := by
  cases same : gap.toList with
  | nil => exact absurd (String.toList_eq_nil_iff.mp same) some
  | cons c more =>
    rw [same] at blank
    exact s.endedBlank (blank c List.mem_cons_self) (more ++ rest)

theorem writeCons (last : String) (p : Piece) (rest : List Piece) :
    (write last (p :: rest)).toList = p.gap.toList ++ (p.lexeme.text.toList ++ (write last rest).toList) := by
  rw [write, String.toList_append, String.toList_append, List.append_assoc]

theorem endedWrite {last : String} (blank : ∀ c ∈ last.toList, Blank c) {p : Piece} {rest : List Piece}
    (apart : (p :: rest).IsChain Piece.Apart) : p.lexeme.Ended (write last rest).toList := by
  cases rest with
  | nil =>
    by_cases empty : last = ""
    · rw [write, empty]
      exact fun c head => by cases head
    · have ended := endedGap p.lexeme blank empty []
      rwa [List.append_nil] at ended
  | cons q rest =>
    rw [writeCons]
    by_cases empty : q.gap = ""
    · have separate : ¬ p.lexeme.Merges q.lexeme := fun merges =>
        (List.isChain_cons_cons.mp apart).1 merges empty
      rw [empty]
      exact Spelling.endedSpelling separate _
    · exact endedGap p.lexeme q.blank empty _

theorem writeScan {last : String} (blank : ∀ c ∈ last.toList, Blank c) {pieces : List Piece}
    (apart : pieces.IsChain Piece.Apart) (offset : Nat) :
    Scan offset (write last pieces).toList (place last offset pieces) := by
  induction pieces generalizing offset with
  | nil =>
    rw [write, place, blankSize blank]
    exact .last blank
  | cons p rest ih =>
    rw [writeCons, place, p.lexeme.size, blankSize p.blank]
    exact .next p.blank (Spelling.lexeme (endedWrite blank apart)) (ih apart.tail _)

end Layout

theorem tokenizeLayout (l : Layout) : tokenize l.source = .ok l.tokens :=
  tokenizeScan (Layout.writeScan l.blank l.apart 0)

def tightLayout : Layout where
  pieces :=
    [⟨"", List.forall_mem_nil _, .integer "02" (by decide) (by decide)⟩,
      ⟨"", List.forall_mem_nil _, .keyword⟩,
      ⟨" ", List.forall_mem_singleton.mpr (.inl rfl), .float "7" "5" (by decide) (by decide)⟩,
      ⟨"", List.forall_mem_nil _, .symbol '(' .leftParen (by simp [symbols])⟩]
  apart := by simp [Piece.Apart, Spelling.Merges, Spelling.IsName, Spelling.IsNumber]
  last := "\r"
  blank := List.forall_mem_singleton.mpr (.inr (.inr rfl))

theorem tokenizeLayoutTight :
    tightLayout.source = "02function 7.5(\r" ∧
      tokenize tightLayout.source = .ok [⟨.number (.int 2), ⟨0, 2⟩⟩, ⟨.function, ⟨2, 10⟩⟩,
        ⟨.number (.float 7.5), ⟨11, 14⟩⟩, ⟨.leftParen, ⟨14, 15⟩⟩, ⟨.endOfInput, ⟨16, 16⟩⟩] := by
  have tokens : tightLayout.tokens = [⟨.number (.int 2), ⟨0, 2⟩⟩, ⟨.function, ⟨2, 10⟩⟩,
      ⟨.number (.float 7.5), ⟨11, 14⟩⟩, ⟨.leftParen, ⟨14, 15⟩⟩, ⟨.endOfInput, ⟨16, 16⟩⟩] := by
    decide +kernel
  exact ⟨by decide +kernel, tokens ▸ tokenizeLayout tightLayout⟩

end CalcLang
