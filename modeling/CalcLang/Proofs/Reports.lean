import CalcLang.CommandLine.Report
import CalcLang.Proofs.Basic

/-! What a command line shows of a source. The report goes through the stages by itself and writes
its dumps on the way; here it is tied to the result of the source as a whole. Every dump depends
on its own stage alone, the code and the error on the result alone. -/
namespace CalcLang

def shown {ε α : Type} (asked : Bool) (stage : Except ε α) (text : α → String) : String :=
  match stage with
  | .ok a => if asked then text a else ""
  | .error _ => ""

def tokenLines (tokens : List Token) : String := String.join (tokens.map fun t => t.text ++ "\n")

def Options.dumps (o : Options) (source : String) : String :=
  shown o.showTokens (tokenize source) tokenLines ++
    shown o.showTree (Program.ofSource source) Program.text ++
    shown o.showCode (Executable.ofSource source) Executable.listing

def globalLines (result : Except Failure Execution) : String :=
  match result with
  | .ok e => if e.render = "" then "" else e.render ++ "\n"
  | .error _ => ""

def Report.ofResult (dumps : String) : Except Failure Execution → Report
  | .ok e => ⟨0, dumps ++ globalLines (.ok e), ""⟩
  | .error f => ⟨1, dumps, "Error: " ++ f.message ++ "\n"⟩

theorem resultLines (e : Execution) : Options.resultText e = globalLines (.ok e) := by
  unfold Options.resultText globalLines
  simp only [String.isEmpty_iff]

theorem uncompiledReport (o : Options) {source : String} {f : Failure}
    (compiled : Executable.ofSource source = .error f) :
    Report.ofResult (o.dumps source) (runSource source o.callDepth) =
      .failed (shown o.showTokens (tokenize source) tokenLines ++
        shown o.showTree (Program.ofSource source) Program.text) (.program f) := by
  unfold Options.dumps
  rw [uncompiledRun o.callDepth compiled, compiled]
  simp only [shown, String.append_empty]
  rfl

theorem executeReport (o : Options) (source : String) :
    o.execute source = .ofResult (o.dumps source) (runSource source o.callDepth) := by
  cases lexed : tokenize source with
  | error e =>
    have read := unlexedProgram lexed
    rw [uncompiledReport o (unreadExecutable read), read]
    simp only [Options.execute, lexed]
    rfl
  | ok tokens =>
    have read := lexedProgram lexed
    cases parsed : Program.ofTokens tokens with
    | error e =>
      replace read : Program.ofSource source = .error (.parse e) := by rw [read, parsed]; rfl
      rw [uncompiledReport o (unreadExecutable read), read]
      simp only [Options.execute, lexed, parsed, shown, String.append_empty]
      rfl
    | ok p =>
      replace read : Program.ofSource source = .ok p := by rw [read, parsed]; rfl
      have compiled := readExecutable read
      cases checked : p.check with
      | error e =>
        rw [checked] at compiled
        rw [uncompiledReport o compiled, read]
        simp only [Options.execute, lexed, parsed, checked]
        rfl
      | ok _ =>
        rw [checked] at compiled
        cases code : p.compile with
        | error e =>
          rw [code] at compiled
          rw [uncompiledReport o compiled, read]
          simp only [Options.execute, lexed, parsed, checked, code]
          rfl
        | ok x =>
          rw [code] at compiled
          simp only [Options.execute, lexed, parsed, checked, code, resultLines, Options.dumps, read,
            compiledRun o.callDepth compiled, compiled]
          cases Execution.ofOutcome (x.run o.callDepth) <;> rfl

/-- The report tells the result of the source, with the dumps that the options ask for before it;
a failure is told without its stage. -/
structure Report.Agrees (r : Report) (o : Options) (source : String) : Prop where
  code : r.code = 0 ↔ ∃ e, runSource source o.callDepth = .ok e
  stdout : r.stdout = o.dumps source ++ globalLines (runSource source o.callDepth)
  silent : ∀ e, runSource source o.callDepth = .ok e → r.stderr = ""
  failed : ∀ f, runSource source o.callDepth = .error f →
    r.code = 1 ∧ r.stderr = "Error: " ++ f.message ++ "\n"

theorem ofResultAgrees (o : Options) (source : String) :
    (Report.ofResult (o.dumps source) (runSource source o.callDepth)).Agrees o source := by
  cases result : runSource source o.callDepth with
  | ok e =>
    refine ⟨by simp [Report.ofResult, result], ?_, fun _ _ => rfl, fun f failed => ?_⟩
    · rw [result]
      rfl
    · rw [result] at failed
      cases failed
  | error f =>
    refine ⟨by simp [Report.ofResult, result], ?_, fun e done => ?_, fun g failed => ?_⟩
    · rw [result]
      exact String.append_empty.symm
    · rw [result] at done
      cases done
    · rw [result] at failed
      cases failed
      exact ⟨rfl, rfl⟩

theorem commandLineResponds {m : Type → Type} [Monad m] [LawfulMonad m] {args : List String}
    {o : Options} (accepted : Options.parse args = .ok o)
    (read : Option String → m (Except ReadError ByteArray)) :
    commandLine args read = o.respond <$> read o.path := by
  unfold commandLine
  rw [accepted, map_eq_pure_bind]

theorem commandLineRead {args : List String} {read : Option String → Id (Except ReadError ByteArray)}
    {o : Options} {bytes : ByteArray} {source : String} (accepted : Options.parse args = .ok o)
    (given : read o.path = .ok bytes) (decoded : String.fromUTF8? bytes = some source) :
    commandLine args read = Report.ofResult (o.dumps source) (runSource source o.callDepth) := by
  rw [commandLineResponds accepted, given, ← executeReport]
  change o.respond (.ok bytes) = _
  unfold Options.respond
  simp only [decoded]

theorem dumpsNone {o : Options} (plain : (o.showTokens || o.showTree || o.showCode) = false)
    (source : String) : o.dumps source = "" := by
  simp only [Bool.or_eq_false_iff] at plain
  have none {ε α : Type} (stage : Except ε α) (text : α → String) : shown false stage text = "" := by
    cases stage <;> rfl
  unfold Options.dumps
  rw [plain.1.1, plain.1.2, plain.2, none, none, none]
  rfl

theorem commandLineAgrees {args : List String} {read : Option String → Id (Except ReadError ByteArray)}
    {o : Options} {bytes : ByteArray} {source : String} (accepted : Options.parse args = .ok o)
    (given : read o.path = .ok bytes) (decoded : String.fromUTF8? bytes = some source) :
    (commandLine args read).Agrees o source ∧
      (∀ others p, Options.parse others = .ok p → p.path = o.path → p.callDepth = o.callDepth →
        (commandLine others read).code = (commandLine args read).code ∧
          (commandLine others read).stderr = (commandLine args read).stderr ∧
          ∃ globals, (commandLine args read).stdout = o.dumps source ++ globals ∧
            (commandLine others read).stdout = p.dumps source ++ globals) ∧
      ((o.showTokens || o.showTree || o.showCode) = false → (commandLine args read).code ≠ 0 →
        (commandLine args read).stdout = "") := by
  have report := commandLineRead accepted given decoded
  have agrees := ofResultAgrees o source
  rw [← report] at agrees
  refine ⟨agrees, fun others p also path depth => ?_, fun plain failed => ?_⟩
  · rw [← path] at given
    have other := commandLineRead also given decoded
    have otherAgrees := ofResultAgrees p source
    rw [← other] at otherAgrees
    rw [depth] at other
    refine ⟨?_, ?_, _, agrees.stdout, ?_⟩
    · rw [other, report]
      cases runSource source o.callDepth <;> rfl
    · rw [other, report]
      cases runSource source o.callDepth <;> rfl
    · rw [otherAgrees.stdout, depth]
  · cases result : runSource source o.callDepth with
    | ok e => exact absurd (agrees.code.mpr ⟨e, result⟩) failed
    | error f =>
      rw [agrees.stdout, dumpsNone plain, result]
      rfl

def endlessSource : String := "function f(x) = f(x)\nf(1)\n"

def endlessInput (_path : Option String) : Id (Except ReadError ByteArray) := .ok endlessSource.toUTF8

def endlessTree : String :=
  "Program:\n  FunctionDef(f, params=[x])\n    Call(f)\n      Var(x)\n  Call(f)\n    Number(1)\n"

theorem commandLineAgreesEndless :
    Options.parse ["--max-call-depth", "16", "--ast"] = .ok ⟨false, true, false, 16, none⟩ ∧
      endlessInput none = .ok endlessSource.toUTF8 ∧
      String.fromUTF8? endlessSource.toUTF8 = some endlessSource ∧
      (commandLine ["--max-call-depth", "16", "--ast"] endlessInput).code = 1 ∧
      (commandLine ["--max-call-depth", "16", "--ast"] endlessInput).stdout = endlessTree ∧
      (commandLine ["--max-call-depth", "16", "--ast"] endlessInput).stderr =
        "Error: Maximum call depth of 16 exceeded\n" := by
  have accepted : Options.parse ["--max-call-depth", "16", "--ast"] =
      .ok ⟨false, true, false, 16, none⟩ := by decide +kernel
  have given : endlessInput none = .ok endlessSource.toUTF8 := rfl
  have decoded : String.fromUTF8? endlessSource.toUTF8 = some endlessSource := by decide +kernel
  have result : runSource endlessSource 16 = .error (.run (.recursionLimit 16)) := by decide +kernel
  have dumps : Options.dumps ⟨false, true, false, 16, none⟩ endlessSource = endlessTree := by decide +kernel
  obtain ⟨agrees, -⟩ := commandLineAgrees accepted given decoded
  obtain ⟨code, stderr⟩ := agrees.failed _ result
  have stdout := agrees.stdout
  rw [dumps, result] at stdout
  exact ⟨accepted, given, decoded, code, stdout, stderr⟩

end CalcLang
