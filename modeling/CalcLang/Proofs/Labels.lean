import CalcLang.Proofs.Numerals

/-! Texts that determine what they show. The text of a value that is a number gives its sign, its kind
and its digits back, and the label of a node gives back the kind of the node and what it carries. -/
namespace CalcLang

theorem flatMapUnique {α β : Type} {code : α → List β} {good fine : α → Prop} (shown : ∀ u, code u ≠ [])
    (first : ∀ u v (us vs : List α), good u → fine v →
      code u ++ us.flatMap code = code v ++ vs.flatMap code → u = v ∧ us.flatMap code = vs.flatMap code)
    {us vs : List α} (left : ∀ u ∈ us, good u) (right : ∀ v ∈ vs, fine v)
    (same : us.flatMap code = vs.flatMap code) : us = vs := by
  induction us generalizing vs with
  | nil =>
    cases vs with
    | nil => rfl
    | cons v vs => exact absurd (List.append_eq_nil_iff.mp same.symm).1 (shown v)
  | cons u us ih =>
    cases vs with
    | nil => exact absurd (List.append_eq_nil_iff.mp same).1 (shown u)
    | cons v vs =>
      obtain ⟨here, left⟩ := List.forall_mem_cons.mp left
      obtain ⟨there, right⟩ := List.forall_mem_cons.mp right
      obtain ⟨heads, tails⟩ := first u v us vs here there same
      rw [heads, ih left right tails]

/-! The text of a value determines it. -/

theorem Binary64.unique {x y : Binary64} (signs : x.negative = y.negative)
    (sizes : x.magnitude = y.magnitude) : x = y := by
  have signs : signBit ≤ x.bits.toNat ↔ signBit ≤ y.bits.toNat := decide_eq_decide.mp signs
  have bits : x.bits.toNat = y.bits.toNat := by
    have first := x.bits.toNat_lt
    have second := y.bits.toNat_lt
    unfold magnitude at sizes
    unfold signBit at signs sizes
    omega
  exact congrArg mk (UInt64.toNat_inj.mp bits)

namespace Value

theorem floatBody {x : Binary64} (number : ¬ (float x).IsNaN) :
    (x.magnitude = Binary64.infinity ∧ (float x).body = ['i', 'n', 'f']) ∨
      (x.magnitude < Binary64.infinity ∧
        (float x).body = (shownDecimal x.magnitude).wholeDigits ++
          '.' :: (shownDecimal x.magnitude).fractionDigits) := by
  have small : ¬ Binary64.infinity < x.magnitude := fun above => number (decide_eq_true above)
  by_cases infinite : x.magnitude = Binary64.infinity
  · exact .inl ⟨infinite, if_pos infinite⟩
  · have below : x.magnitude < Binary64.infinity := by omega
    exact .inr ⟨below, bodyFloat below⟩

theorem integerBody (n : Int64) : ∀ c ∈ (int n).body, Digit c := (Decimal.toDigitsDigits _).2

theorem bodyPlain {v : Value} (number : ¬ v.IsNaN) : ∀ c ∈ v.body, WordPart c ∨ c = '.' := by
  cases v with
  | int n => exact fun c mem => .inl (.inr (integerBody n c mem))
  | float x =>
    rcases floatBody number with ⟨_, infinite⟩ | ⟨_, finite⟩
    · rw [infinite]
      have letters : ['i', 'n', 'f'].all Cursor.isWordPart = true := rfl
      exact fun c mem => .inl (isWordPartIff.mp (List.all_eq_true.mp letters c mem))
    · rw [finite]
      refine List.forall_mem_append.mpr ⟨fun c mem => ?_, List.forall_mem_cons.mpr ⟨.inr rfl, ?_⟩⟩
      · exact .inl (.inr ((Decimal.wholeIsDigits _).2 c mem))
      · exact fun c mem => .inl (.inr ((Decimal.fractionIsDigits _).2 c mem))

-- the letters of an infinity and the point of a finite float are no digits
theorem floatNotDigits {x : Binary64} (number : ¬ (float x).IsNaN) : ¬ ∀ c ∈ (float x).body, Digit c := by
  intro digits
  rcases floatBody number with ⟨_, infinite⟩ | ⟨_, finite⟩
  · rw [infinite] at digits
    exact absurd (digits 'i' List.mem_cons_self) (by decide)
  · rw [finite] at digits
    exact absurd (digits '.' (by simp)) (by decide)

theorem pointIff {x : Binary64} (number : ¬ (float x).IsNaN) :
    '.' ∈ (float x).body ↔ x.magnitude < Binary64.infinity := by
  rcases floatBody number with ⟨infinite, shown⟩ | ⟨finite, shown⟩
  · rw [shown]
    exact iff_of_false (by decide) (by omega)
  · rw [shown]
    exact iff_of_true (by simp) finite

theorem magnitudeUnique {x y : Binary64} (left : ¬ (float x).IsNaN) (right : ¬ (float y).IsNaN)
    (bodies : (float x).body = (float y).body) : x.magnitude = y.magnitude := by
  have both := pointIff left
  rw [bodies, pointIff right] at both
  rcases floatBody left with ⟨first, _⟩ | ⟨first, shown⟩
  · rcases floatBody right with ⟨second, _⟩ | ⟨second, _⟩ <;> omega
  · have second := both.mpr first
    rw [shown, bodyFloat second] at bodies
    obtain ⟨whole, rest⟩ := runUnique (Decimal.wholeIsDigits _).2 (pointStops _)
      (Decimal.wholeIsDigits _).2 (pointStops _) bodies
    have fraction := (List.cons.inj rest).2
    rw [← shownReads first, ← shownReads second, ← Decimal.positionalReads, whole, fraction,
      Decimal.positionalReads]

theorem bodyUnique {v w : Value} (left : ¬ v.IsNaN) (right : ¬ w.IsNaN)
    (signs : v.isNegative = w.isNegative) (bodies : v.body = w.body) : v = w := by
  cases v with
  | int n =>
    cases w with
    | int m =>
      have sizes : n.toInt.natAbs = m.toInt.natAbs := by
        rw [← digitsOfNumber n.toInt.natAbs, ← digitsOfNumber m.toInt.natAbs]
        exact congrArg digitsValue bodies
      have below : n.toInt < 0 ↔ m.toInt < 0 := by
        rw [← Int64.toInt_zero, ← Int64.lt_iff_toInt_lt, ← Int64.lt_iff_toInt_lt]
        exact decide_eq_decide.mp signs
      exact congrArg int (Int64.toInt_inj.mp (by omega))
    | float y => exact absurd (bodies ▸ integerBody n) (floatNotDigits right)
  | float x =>
    cases w with
    | int m => exact absurd (bodies ▸ integerBody m) (floatNotDigits left)
    | float y => exact congrArg float (Binary64.unique signs (magnitudeUnique left right bodies))

theorem signMinus (v : Value) : ∀ c ∈ v.sign, c = '-' := by
  unfold sign
  split <;> simp

theorem bodyUnsigned {v : Value} (number : ¬ v.IsNaN) : ∀ c ∈ v.body.head?, ¬ c = '-' := by
  intro c head minus
  rw [minus] at head
  exact absurd (bodyPlain number '-' (List.mem_of_mem_head? head)) (by decide)

theorem textUnique {v w : Value} (left : ¬ v.IsNaN) (right : ¬ w.IsNaN) (same : v.text = w.text) :
    v = w := by
  have texts : v.sign ++ v.body = w.sign ++ w.body := by rw [← textParts left, ← textParts right, same]
  obtain ⟨signs, bodies⟩ := runUnique v.signMinus (bodyUnsigned left) w.signMinus
    (bodyUnsigned right) texts
  have negative : v.isNegative = w.isNegative := by
    unfold sign at signs
    cases first : v.isNegative <;> cases second : w.isNegative <;> simp [first, second] at signs ⊢
  exact bodyUnique left right negative bodies

theorem textUnbroken {v : Value} (number : ¬ v.IsNaN) : '\n' ∉ v.text.toList := by
  rw [textParts number]
  intro mem
  rcases List.mem_append.mp mem with sign | body
  · exact absurd (v.signMinus _ sign) (by decide)
  · exact absurd (bodyPlain number _ body) (by decide)

end Value

/-! A label determines what it says of its node. -/

section Words

variable {text : List Char}

theorem wordCons {first : Char} {more : List Char} :
    IsWord (first :: more) ↔ Letter first ∧ more.all Cursor.isWordPart = true := by
  constructor
  · intro word
    obtain ⟨_, _, same, letter, parts⟩ := word
    obtain ⟨rfl, rfl⟩ := List.cons.inj same
    exact ⟨letter, List.all_eq_true.mpr fun c mem => isWordPartIff.mpr (parts c mem)⟩
  · intro both
    exact ⟨first, more, rfl, both.1, fun c mem => isWordPartIff.mp (List.all_eq_true.mp both.2 c mem)⟩

instance : DecidablePred IsWord
  | [] => isFalse (by simp [IsWord])
  | _ :: _ => decidable_of_iff _ wordCons.symm

theorem IsWord.parts (word : IsWord text) : ∀ c ∈ text, WordPart c := by
  obtain ⟨first, more, rfl, letter, parts⟩ := word
  exact List.forall_mem_cons.mpr ⟨.inl letter, parts⟩

theorem IsWord.unbroken (word : IsWord text) : '\n' ∉ text := fun mem =>
  absurd (word.parts _ mem) (by decide)

end Words

def separated (texts : List String) : List Char := texts.flatMap fun t => ", ".toList ++ t.toList

theorem intercalateCons (t : String) (texts : List String) :
    (", ".intercalate (t :: texts)).toList = t.toList ++ separated texts := by
  induction texts generalizing t with
  | nil => rw [String.intercalate_singleton, separated, List.flatMap_nil, List.append_nil]
  | cons other texts ih =>
    rw [String.intercalate_cons_cons, String.toList_append, String.toList_append, ih, List.append_assoc]
    rfl

theorem separatedStops (texts : List String) : Stops WordPart (separated texts) := by
  cases texts with
  | nil => exact stopsNil WordPart
  | cons t texts => exact stopsCons (by decide) _

theorem separatedUnique {ps qs : List String} (left : ∀ p ∈ ps, IsWord p.toList)
    (right : ∀ q ∈ qs, IsWord q.toList) (same : separated ps = separated qs) : ps = qs := by
  refine flatMapUnique (fun _ => List.cons_ne_nil _ _) ?_ left right same
  intro p q ps qs first second same
  have behind : p.toList ++ separated ps = q.toList ++ separated qs :=
    (List.cons.inj (List.cons.inj same).2).2
  obtain ⟨names, rest⟩ := runUnique first.parts (separatedStops ps) second.parts
    (separatedStops qs) behind
  exact ⟨String.toList_inj.mp names, rest⟩

theorem intercalateWord {t : String} (word : IsWord t.toList) (texts : List String) :
    ", ".intercalate (t :: texts) ≠ "" := by
  intro empty
  have none : t.toList ++ separated texts = [] := by
    rw [← intercalateCons, empty]
    rfl
  obtain ⟨first, more, same, _⟩ := word
  exact List.cons_ne_nil _ _ (same.symm.trans (List.append_eq_nil_iff.mp none).1)

theorem intercalateUnique {ps qs : List String} (left : ∀ p ∈ ps, IsWord p.toList)
    (right : ∀ q ∈ qs, IsWord q.toList) (same : ", ".intercalate ps = ", ".intercalate qs) : ps = qs := by
  cases ps with
  | nil =>
    cases qs with
    | nil => rfl
    | cons q qs => exact absurd same.symm (intercalateWord (right q List.mem_cons_self) qs)
  | cons p ps =>
    cases qs with
    | nil => exact absurd same (intercalateWord (left p List.mem_cons_self) ps)
    | cons q qs =>
      have texts : p.toList ++ separated ps = q.toList ++ separated qs := by
        rw [← intercalateCons, ← intercalateCons, same]
      exact separatedUnique left right (congrArg (", ".toList ++ ·) texts)

theorem separatedUnbroken {texts : List String} (words : ∀ t ∈ texts, IsWord t.toList) :
    '\n' ∉ separated texts := by
  intro mem
  obtain ⟨t, listed, mem⟩ := List.mem_flatMap.mp mem
  rcases List.mem_append.mp mem with comma | word
  · exact absurd comma (by decide)
  · exact (words t listed).unbroken word

theorem intercalateUnbroken {texts : List String} (words : ∀ t ∈ texts, IsWord t.toList) :
    '\n' ∉ (", ".intercalate texts).toList := by
  cases texts with
  | nil => decide
  | cons t texts =>
    obtain ⟨word, words⟩ := List.forall_mem_cons.mp words
    rw [intercalateCons, List.mem_append]
    exact not_or.mpr ⟨word.unbroken, separatedUnbroken words⟩

inductive Node where
  | number (value : Value)
  | var (name : String)
  | binary (op : Operator)
  | call (name : String)
  | apply
  | define (name : String) (params : List String)
  | assign (name : String)

namespace Node

def kind : Node → String
  | number _ => "Number"
  | var _ => "Var"
  | binary _ => "BinaryOp"
  | call _ => "Call"
  | apply => "Call"
  | define _ _ => "FunctionDef"
  | assign _ => "Assign"

def content : Node → String
  | number value => value.text
  | var name => name
  | binary op => op.symbol.toString
  | call name => name
  | apply => "<expr>"
  | define name params => name ++ ", params=[" ++ ", ".intercalate params ++ "]"
  | assign name => name

def label (n : Node) : String := n.kind ++ "(" ++ n.content ++ ")"

def Legible : Node → Prop
  | number value => ¬ value.IsNaN
  | var name => IsWord name.toList
  | binary _ => True
  | call name => IsWord name.toList
  | apply => True
  | define name params => IsWord name.toList ∧ ∀ p ∈ params, IsWord p.toList
  | assign name => IsWord name.toList

theorem kindWord (n : Node) : IsWord n.kind.toList := by
  cases n <;> (dsimp only [kind]; decide)

theorem labelChars (n : Node) : n.label.toList = n.kind.toList ++ '(' :: (n.content.toList ++ [')']) := by
  unfold label
  simp only [String.toList_append, List.append_assoc]
  rfl

theorem contentUnbroken {n : Node} (legible : n.Legible) : '\n' ∉ n.content.toList := by
  cases n with
  | number value => exact Value.textUnbroken legible
  | var name => exact IsWord.unbroken legible
  | binary op => cases op <;> decide
  | call name => exact IsWord.unbroken legible
  | apply => decide
  | define name params =>
    simp only [content, String.toList_append, List.mem_append, not_or]
    exact ⟨⟨⟨legible.1.unbroken, by decide⟩, intercalateUnbroken legible.2⟩, by decide⟩
  | assign name => exact IsWord.unbroken legible

theorem defineUnique {f g : String} {ps qs : List String} (left : (define f ps).Legible)
    (right : (define g qs).Legible) (same : (define f ps).content = (define g qs).content) :
    define f ps = define g qs := by
  have texts : f.toList ++ (", params=[".toList ++ ((", ".intercalate ps).toList ++ "]".toList)) =
      g.toList ++ (", params=[".toList ++ ((", ".intercalate qs).toList ++ "]".toList)) := by
    simpa only [content, String.toList_append, List.append_assoc] using congrArg String.toList same
  have comma (rest : List Char) : Stops WordPart (", params=[".toList ++ rest) := stopsCons (by decide) _
  obtain ⟨names, rest⟩ := runUnique left.1.parts (comma _) right.1.parts (comma _) texts
  have params := List.append_cancel_right (List.append_cancel_left rest)
  rw [String.toList_inj.mp names, intercalateUnique left.2 right.2 (String.toList_inj.mp params)]

theorem nameNotComputed {name : String} (legible : (call name).Legible) :
    (call name).content ≠ apply.content := by
  intro same
  have word : IsWord (call name).content.toList := legible
  rw [same] at word
  exact absurd word (by decide)

theorem contentUnique {m n : Node} (left : m.Legible) (right : n.Legible) (kinds : m.kind = n.kind)
    (contents : m.content = n.content) : m = n := by
  cases m with
  | number v =>
    cases n with
    | number w => exact congrArg number (Value.textUnique left right contents)
    | _ => simp [kind] at kinds
  | var name =>
    cases n with
    | var other => exact congrArg var contents
    | _ => simp [kind] at kinds
  | binary op =>
    cases n with
    | binary other =>
      have symbols : op.symbol = other.symbol := by simpa [content] using contents
      have read : some op = some other := by rw [← op.symbolReadBack, symbols, other.symbolReadBack]
      exact congrArg binary (Option.some.inj read)
    | _ => simp [kind] at kinds
  | call name =>
    cases n with
    | call other => exact congrArg call contents
    | apply => exact absurd contents (nameNotComputed left)
    | _ => simp [kind] at kinds
  | apply =>
    cases n with
    | call other => exact absurd contents.symm (nameNotComputed right)
    | apply => rfl
    | _ => simp [kind] at kinds
  | define name params =>
    cases n with
    | define other others => exact defineUnique left right contents
    | _ => simp [kind] at kinds
  | assign name =>
    cases n with
    | assign other => exact congrArg assign contents
    | _ => simp [kind] at kinds

theorem labelUnique {m n : Node} (left : m.Legible) (right : n.Legible) (same : m.label = n.label) :
    m = n := by
  have bracket (rest : List Char) : Stops WordPart ('(' :: rest) := stopsCons (by decide) rest
  have texts := congrArg String.toList same
  rw [labelChars, labelChars] at texts
  obtain ⟨kinds, rest⟩ := runUnique m.kindWord.parts (bracket _) n.kindWord.parts (bracket _) texts
  have contents := List.append_cancel_right (List.cons.inj rest).2
  exact contentUnique left right (String.toList_inj.mp kinds) (String.toList_inj.mp contents)

end Node

end CalcLang
