import CalcLang.Proofs.Relocation
import CalcLang.Proofs.Spans
import CalcLang.Source

/-! Sources one below the other. No lexeme goes on over a line end and no statement that is
complete before one takes anything from behind it, so a source that is read without an error is
read the same way with more lines below it, and those lines are read as if they stood alone,
only further down. -/
namespace CalcLang

open Grammar

def LexError.moved (move : Nat → Nat) : LexError → LexError
  | unexpectedCharacter c position => unexpectedCharacter c (move position)
  | invalidNumber literal position => invalidNumber literal (move position)

def Failure.moved (move : Nat → Nat) : Failure → Failure
  | lex e => lex (e.moved move)
  | parse e => parse (e.moved move)
  | check e => check e
  | compile e => compile e
  | run e => run e

/-! The tokens of two sources with a line end between them. -/

section Tokens

variable {offset : Nat} {source below : List Char} {tokens others : List Token} {e : LexError}

theorem Scan.moved (scan : Scan offset source tokens) (distance : Nat) :
    Scan (offset + distance) source (tokens.map (Token.moved (· + distance))) := by
  induction scan with
  | @last offset gap blank =>
    have moved : Scan (offset + distance) gap _ := .last blank
    rwa [Nat.add_right_comm] at moved
  | @next offset gap text after kind tokens blank lexeme later ih =>
    rw [Nat.add_right_comm, Nat.add_right_comm offset] at ih
    have moved : Scan (offset + distance) (gap ++ (text ++ after)) _ := .next blank lexeme ih
    rwa [Nat.add_right_comm offset, Nat.add_right_comm (offset + gap.length)] at moved

theorem Broken.moved (broken : Broken offset source e) (distance : Nat) :
    Broken (offset + distance) source (e.moved (· + distance)) := by
  induction broken with
  | @here offset gap rest e blank offence =>
    refine .here blank ?_
    rw [Nat.add_right_comm]
    cases offence with
    | character blank part unlisted => exact .character blank part unlisted
    | number all stop noFraction large => exact .number all stop noFraction large
  | @later offset gap text after kind e blank lexeme inner ih =>
    rw [Nat.add_right_comm, Nat.add_right_comm offset] at ih
    exact .later blank lexeme ih

theorem Lexeme.beforeLine {text after : List Char} {kind : TokenKind} (lexeme : Lexeme text after kind)
    (below : List Char) : Lexeme text (after ++ '\n' :: below) kind := by
  cases after with
  | nil =>
    refine lexeme.behind (fun _ => stopsCons (by decide) below) (fun _ => stopsCons (by decide) below) ?_
    intro _ c rest same
    cases same
  | cons c rest =>
    refine lexeme.behind id id fun noFraction d others same => ?_
    cases rest with
    | nil =>
      cases same
      decide
    | cons next rest =>
      cases same
      exact noFraction d rest rfl

theorem offsetBehind (offset : Nat) (gap text after : List Char) :
    offset + (gap ++ (text ++ after)).length = offset + gap.length + text.length + after.length := by
  simp only [List.length_append, Nat.add_assoc]

theorem lineEnd (below : List Char) : Lexeme ['\n'] below .newline := .symbol (by simp [symbols])

theorem Scan.line (scan : Scan offset source tokens) :
    ∃ body, tokens = body ++ [⟨.endOfInput, ⟨offset + source.length, offset + source.length⟩⟩] ∧
      (∀ t ∈ body, t.kind ≠ .endOfInput) ∧
      ∀ below others, Scan (offset + source.length + 1) below others →
        Scan offset (source ++ '\n' :: below) (body ++
          ⟨.newline, ⟨offset + source.length, offset + source.length + 1⟩⟩ :: others) := by
  induction scan with
  | last blank =>
    refine ⟨[], rfl, List.forall_mem_nil _, fun below others scan => ?_⟩
    exact .next blank (lineEnd below) scan
  | @next offset gap text after kind tokens blank lexeme later ih =>
    obtain ⟨body, rfl, more, joined⟩ := ih
    rw [offsetBehind]
    refine ⟨_ :: body, rfl, List.forall_mem_cons.mpr ⟨lexeme.kindMore, more⟩, fun below others scan => ?_⟩
    rw [List.append_assoc, List.append_assoc]
    exact .next blank (lexeme.beforeLine below) (joined below others scan)

theorem Scan.brokenLine (scan : Scan offset source tokens)
    (broken : Broken (offset + source.length + 1) below e) :
    Broken offset (source ++ '\n' :: below) e := by
  induction scan with
  | last blank => exact .later blank (lineEnd below) broken
  | @next offset gap text after kind tokens blank lexeme later ih =>
    rw [offsetBehind] at broken
    rw [List.append_assoc, List.append_assoc]
    exact .later blank (lexeme.beforeLine below) (ih broken)

end Tokens

/-! The statements of two inputs with a line end between them. -/

namespace Reader

theorem apartBeforeLine {behind : List Token} (ends : Ends .sum behind)
    (apart : (kinds behind).head? ≠ some .assign) (span : Span) (rest : List Token) :
    Ends .sum (behind ++ ⟨.newline, span⟩ :: rest) ∧
      (kinds (behind ++ ⟨.newline, span⟩ :: rest)).head? ≠ some .assign := by
  cases behind with
  | nil =>
    refine ⟨?_, by simp⟩
    rintro _ ⟨⟩
    rfl
  | cons t behind => exact ⟨ends, apart⟩

theorem textBeforeLine {nesting : Nat} {word : List TokenKind} {all : List Statement}
    (text : Text nesting word all) (fits : nesting < nestingLimit)
    (low : ∀ s ∈ all, s.expr.height ≤ heightLimit) (stop : Nat) (read : List Statement)
    {taken : List Token} (spelled : kinds taken = word) (span : Span) (rest : List Token) :
    statements stop read (taken ++ ⟨.newline, span⟩ :: rest) =
      statements stop (all.reverse ++ read) rest := by
  induction text generalizing read taken with
  | nil =>
    obtain rfl : taken = [] := List.map_eq_nil_iff.mp spelled
    rw [List.nil_append, statements]
    rfl
  | newline _ ih =>
    obtain ⟨_, others, rfl, behind⟩ := kindsHead spelled
    rw [List.cons_append, statements]
    exact ih fits low read behind
  | @clause nesting word s deeper more others first apart later ih =>
    obtain ⟨taken, behind, rfl, rfl, rfl⟩ := List.map_eq_append_iff.mp spelled
    obtain ⟨ends, noAssign⟩ := textApart later apart
    obtain ⟨ends, noAssign⟩ := apartBeforeLine ends noAssign span rest
    obtain ⟨kind, tail, headed, opens⟩ := clauseHead first
    obtain ⟨place, tokens, rfl, -⟩ := kindsHead headed
    have notBlank : kind ≠ .newline := by
      rintro rfl
      simp [TokenKind.opens] at opens
    have short : (behind ++ ⟨.newline, span⟩ :: rest).length <
        (⟨kind, place⟩ :: tokens ++ (behind ++ ⟨.newline, span⟩ :: rest)).length := by
      simp only [List.cons_append, List.length_cons, List.length_append]
      omega
    have read := (clauseRead stop nestingLimit rfl first ends noAssign short).fit ⟨by omega, low s List.mem_cons_self⟩
    rw [List.append_assoc, statementsClause rfl notBlank, read]
    refine (ih (by omega) (fun t mem => low t (List.mem_cons_of_mem _ mem)) (s :: _) rfl).trans ?_
    simp

theorem statementsBefore (stop : Nat) (before read : List Statement) (input : List Token) :
    statements stop (read ++ before) input = (statements stop read input).map (before.reverse ++ ·) := by
  fun_induction statements stop read input with
  | case1 read =>
    rw [statements, List.reverse_append]
    rfl
  | case2 read span rest ih =>
    rw [statements]
    exact ih
  | case3 read t rest other ih =>
    have notBlank : t.kind ≠ .newline := fun same => other t.span (by rw [← same])
    have head : (kinds (t :: rest)).head? = some t.kind := rfl
    rw [statementsClause head notBlank]
    cases statement stop (expression stop nestingLimit) (t :: rest) with
    | error e => rfl
    | ok s => exact ih s

end Reader

namespace Program

theorem ofTokensBody {body : List Token} (more : ∀ t ∈ body, t.kind ≠ .endOfInput) (stop : Nat) :
    ofTokens (body ++ [⟨.endOfInput, ⟨stop, stop⟩⟩]) =
      (Reader.statements stop [] body >>= fun all => .ok ⟨all⟩) := by
  rw [ofTokens, sentenceBefore more rfl, stopBefore more rfl]

theorem ofTokensBelow {body lower : List Token} {p : Program} {stop : Nat}
    (more : ∀ t ∈ body, t.kind ≠ .endOfInput)
    (read : ofTokens (body ++ [⟨.endOfInput, ⟨stop, stop⟩⟩]) = .ok p)
    (others : ∀ t ∈ lower, t.kind ≠ .endOfInput) (span : Span) (last : Nat) (move : Nat → Nat) :
    Relocated move (fun q r => r = ⟨p.statements ++ q.statements⟩)
      (ofTokens (lower ++ [⟨.endOfInput, ⟨last, last⟩⟩]))
      (ofTokens (body ++ ⟨.newline, span⟩ ::
        List.map (Token.moved move) (lower ++ [⟨.endOfInput, ⟨last, last⟩⟩]))) := by
  have joined : ∀ t ∈ body ++ Token.mk .newline span :: lower.map (Token.moved move),
      t.kind ≠ .endOfInput := by
    refine List.forall_mem_append.mpr ⟨more, List.forall_mem_cons.mpr ⟨by simp, ?_⟩⟩
    exact List.forall_mem_map.mpr others
  have regroup : body ++ Token.mk .newline span ::
        List.map (Token.moved move) (lower ++ [⟨.endOfInput, ⟨last, last⟩⟩]) =
      (body ++ Token.mk .newline span :: lower.map (Token.moved move)) ++
        [⟨.endOfInput, ⟨move last, move last⟩⟩] := by
    rw [List.map_append, List.append_assoc]
    rfl
  rw [ofTokensBody more] at read
  obtain ⟨all, readAll, read⟩ := bindOk read
  cases read
  obtain ⟨nesting, _, rfl, fits, text, low⟩ := Reader.statementsSound readAll
  rw [regroup, ofTokensBody joined, ofTokensBody others,
    Reader.textBeforeLine text fits low (move last) [] rfl span]
  have before := Reader.statementsBefore (move last) all.reverse [] (lower.map (Token.moved move))
  rw [List.nil_append, List.reverse_reverse] at before
  rw [List.append_nil, before]
  have moved : Relocated move Eq _ _ := Reader.statementsMoved last [] lower
  generalize Reader.statements last [] lower = alone at moved ⊢
  generalize Reader.statements (move last) [] (lower.map (Token.moved move)) = below at moved ⊢
  cases moved with
  | ok equal => exact .ok (by rw [equal])
  | error e => exact .error e

theorem ofSourceScan {source : String} {tokens : List Token} (scan : Scan 0 source.toList tokens) :
    ofSource source = (ofTokens tokens).mapError .parse :=
  lexedProgram (tokenizeScan scan)

theorem ofSourceBroken {source : String} {e : LexError} (broken : Broken 0 source.toList e) :
    ofSource source = .error (.lex e) :=
  unlexedProgram (tokenizeBroken broken)

theorem scanOfSource {source : String} {p : Program} (read : ofSource source = .ok p) :
    ∃ tokens, Scan 0 source.toList tokens ∧ ofTokens tokens = .ok p := by
  rcases scanOrBroken 0 source.toList with ⟨tokens, scan⟩ | ⟨e, broken⟩
  · refine ⟨tokens, scan, ?_⟩
    rw [ofSourceScan scan] at read
    cases parsed : ofTokens tokens with
    | error e =>
      rw [parsed] at read
      cases read
    | ok q =>
      rw [parsed] at read
      cases read
      rfl
  · rw [ofSourceBroken broken] at read
    cases read

end Program

section Sources

variable {first second : String} {p : Program} {tokens others : List Token}

theorem linesList : (first ++ "\n" ++ second).toList = first.toList ++ '\n' :: second.toList := by
  rw [String.toList_append, String.toList_append, List.append_assoc]
  rfl

theorem linesTokens (upper : Scan 0 first.toList tokens) (parsed : Program.ofTokens tokens = .ok p)
    (lower : Scan 0 second.toList others) :
    ∃ all, Scan 0 (first ++ "\n" ++ second).toList all ∧
      Relocated (· + (first.toList.length + 1)) (fun q r => r = ⟨p.statements ++ q.statements⟩)
        (Program.ofTokens others) (Program.ofTokens all) := by
  obtain ⟨body, rfl, more, joined⟩ := upper.line
  have below := lower.moved (first.toList.length + 1)
  rw [← Nat.add_assoc] at below
  obtain ⟨lowerBody, rfl, lowerMore, -⟩ := lower.line
  rw [linesList]
  exact ⟨_, joined _ _ below, Program.ofTokensBelow more parsed lowerMore _ _ _⟩

theorem linesBroken (upper : Scan 0 first.toList tokens) {e : LexError}
    (broken : Broken 0 second.toList e) :
    Broken 0 (first ++ "\n" ++ second).toList (e.moved (· + (first.toList.length + 1))) := by
  have below := broken.moved (first.toList.length + 1)
  rw [← Nat.add_assoc] at below
  rw [linesList]
  exact upper.brokenLine below

def Program.below (p : Program) (distance : Nat) : Except Failure Program → Except Failure Program
  | .ok q => .ok ⟨p.statements ++ q.statements⟩
  | .error e => .error (e.moved (· + distance))

theorem linesRead (upper : Scan 0 first.toList tokens) (parsed : Program.ofTokens tokens = .ok p)
    (second : String) :
    Program.ofSource (first ++ "\n" ++ second) =
      p.below (first.toList.length + 1) (Program.ofSource second) := by
  rcases scanOrBroken 0 second.toList with ⟨others, lower⟩ | ⟨e, broken⟩
  · obtain ⟨all, whole, related⟩ := linesTokens upper parsed lower
    rw [Program.ofSourceScan lower, Program.ofSourceScan whole]
    generalize Program.ofTokens others = alone at related ⊢
    generalize Program.ofTokens all = joined at related ⊢
    cases related with
    | ok same =>
      rw [same]
      rfl
    | error e => rfl
  · rw [Program.ofSourceBroken broken, Program.ofSourceBroken (linesBroken upper broken)]
    rfl

end Sources

theorem ofSourceLines {first second : String} {p : Program} (read : Program.ofSource first = .ok p) :
    (∀ q, Program.ofSource second = .ok q →
      Program.ofSource (first ++ "\n" ++ second) = .ok ⟨p.statements ++ q.statements⟩) ∧
    ∀ e, Program.ofSource second = .error e →
      Program.ofSource (first ++ "\n" ++ second) = .error (e.moved (· + (first.utf8ByteSize + 1))) := by
  obtain ⟨tokens, upper, parsed⟩ := Program.scanOfSource read
  rw [sourceSize upper, linesRead upper parsed]
  constructor
  · intro q alone
    rw [alone, Program.below]
  · intro e failed
    rw [failed, Program.below]

theorem ofSourceLinesAssignment :
    Program.ofSource "x = (1)\t" = .ok ⟨[.assign "x" (.number (.int 1))]⟩ ∧
      Program.ofSource ("x = (1)\t" ++ "\n" ++ "x") =
        .ok ⟨[.assign "x" (.number (.int 1)), .eval (.var "x")]⟩ ∧
      Program.ofSource ("x = (1)\t" ++ "\n" ++ "(x") =
        .error (.parse (.unexpected .rightParen .endOfInput 11)) ∧
      Program.ofSource ("x = (1)\t" ++ "\n" ++ "é") = .error (.lex (.unexpectedCharacter 'é' 9)) := by
  have read : Program.ofSource "x = (1)\t" = .ok ⟨[.assign "x" (.number (.int 1))]⟩ := by
    with_unfolding_all rfl
  have alone : Program.ofSource "x" = .ok ⟨[.eval (.var "x")]⟩ := by with_unfolding_all rfl
  have unclosed : Program.ofSource "(x" =
      .error (.parse (.unexpected .rightParen .endOfInput 2)) := by with_unfolding_all rfl
  have strange : Program.ofSource "é" = .error (.lex (.unexpectedCharacter 'é' 0)) := by
    with_unfolding_all rfl
  exact ⟨read, (ofSourceLines read).1 _ alone, (ofSourceLines read).2 _ unclosed,
    (ofSourceLines read).2 _ strange⟩

end CalcLang
