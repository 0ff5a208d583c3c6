import CalcLang.Checks.Basic
import CalcLang.Code.Compile
import CalcLang.Machine.Run
import CalcLang.Token.Stream
import CalcLang.Tree.OfTokens

/-! From source text to result: tokens, tree, checks, code, run. The first stage that fails
decides the failure. The logged forms do the same work and also tell what each stage
produced. -/
namespace CalcLang

inductive Failure where
  | lex (e : LexError)
  | parse (e : SyntaxError)
  | check (e : CheckError)
  | compile (e : CompileError)
  | run (e : RunError)
  deriving DecidableEq

namespace Failure

def message : Failure → String
  | lex e => e.message
  | parse e => e.message
  | check e => e.message
  | compile e => e.message
  | run e => e.message

def stage : Failure → String
  | lex _ => "Lex"
  | parse _ => "Parse"
  | check _ => "Semantic"
  | compile _ => "Compile"
  | run _ => "Runtime"

def stagedMessage (f : Failure) : String := f.stage ++ " error: " ++ f.message

end Failure

structure Execution where
  value : Option Value
  globals : Globals
  deriving DecidableEq

namespace Execution

def ofOutcome (o : Outcome) : Except Failure Execution :=
  match o.result with
  | .ok value => .ok ⟨value, o.globals⟩
  | .error e => .error (.run e)

def global (e : Execution) (name : String) : Option Value := e.globals.get? name

def render (e : Execution) : String :=
  "\n".intercalate (e.globals.entries.map fun (name, value) => name ++ " = " ++ value.text)

end Execution

def Program.ofSource (source : String) : Except Failure Program := do
  let tokens ← (tokenize source).mapError .lex
  (Program.ofTokens tokens).mapError .parse

def Executable.ofSource (source : String) : Except Failure Executable := do
  let program ← Program.ofSource source
  program.check.mapError .check
  program.compile.mapError .compile

def runSource (source : String) (limit : Nat) : Except Failure Execution := do
  let x ← Executable.ofSource source
  Execution.ofOutcome (x.run limit)

section Stages

variable {source : String} {tokens : List Token} {p : Program}

theorem unlexedProgram {e : LexError} (lexed : tokenize source = .error e) :
    Program.ofSource source = .error (.lex e) := by
  unfold Program.ofSource
  rw [lexed]
  rfl

theorem lexedProgram (lexed : tokenize source = .ok tokens) :
    Program.ofSource source = (Program.ofTokens tokens).mapError .parse := by
  unfold Program.ofSource
  rw [lexed]
  rfl

theorem unreadExecutable {f : Failure} (read : Program.ofSource source = .error f) :
    Executable.ofSource source = .error f := by
  unfold Executable.ofSource
  rw [read]
  rfl

theorem readExecutable (read : Program.ofSource source = .ok p) :
    Executable.ofSource source =
      (p.check.mapError .check >>= fun _ => p.compile.mapError .compile) := by
  unfold Executable.ofSource
  rw [read]
  rfl

theorem uncompiledRun {f : Failure} (limit : Nat) (compiled : Executable.ofSource source = .error f) :
    runSource source limit = .error f := by
  unfold runSource
  rw [compiled]
  rfl

theorem compiledRun {x : Executable} (limit : Nat) (compiled : Executable.ofSource source = .ok x) :
    runSource source limit = Execution.ofOutcome (x.run limit) := by
  unfold runSource
  rw [compiled]
  rfl

end Stages

inductive LogEntry where
  | lexed (tokens : Nat)
  | parsed (statements : Nat)
  | checked (statements functions globals : Nat)
  | compiled (instructions functions : Nat)
  | executing (event : Event)
  | finished (globals : Nat)
  deriving DecidableEq

def LogEntry.text : LogEntry → String
  | lexed tokens => "lexed " ++ toString tokens ++ " tokens"
  | parsed statements => "parsed " ++ toString statements ++ " statements"
  | checked statements functions globals =>
    "semantic analysis passed: " ++ toString statements ++ " statements, " ++ toString functions ++
      " functions, " ++ toString globals ++ " globals"
  | compiled instructions functions =>
    "compiled " ++ toString instructions ++ " top-level instructions and " ++ toString functions ++
      " functions"
  | executing event => event.text
  | finished globals => "vm finished with " ++ toString globals ++ " globals"

def Executable.runLogged (x : Executable) (limit : Nat) : Outcome × Array LogEntry :=
  let (outcome, events) := x.trace limit
  let log := events.map .executing
  match outcome.result with
  | .ok _ => (outcome, log.push (.finished outcome.globals.size))
  | .error _ => (outcome, log)

def Program.globalCount (p : Program) : Nat :=
  (Bindings.ofPairs (p.assigned.map fun name => (name, ()))).size

abbrev Logged := ExceptT Failure (StateM (Array LogEntry))

namespace Logged

def note (entry : LogEntry) : Logged Unit := modify (·.push entry)

def attempt {ε α : Type} (failure : ε → Failure) (result : Except ε α) : Logged α :=
  liftExcept (result.mapError failure)
where
  liftExcept : Except Failure α → Logged α
    | .ok a => pure a
    | .error e => throw e

def compileSource (source : String) : Logged Executable := do
  let tokens ← attempt .lex (tokenize source)
  note (.lexed tokens.length)
  let program ← attempt .parse (Program.ofTokens tokens)
  note (.parsed program.statements.length)
  attempt .check program.check
  note (.checked program.statements.length program.definitions.length program.globalCount)
  let x ← attempt .compile program.compile
  note (.compiled x.main.instructions.size x.functions.size)
  return x

end Logged

def traceSource (source : String) (limit : Nat) : Except Failure Execution × Array LogEntry :=
  match (Logged.compileSource source).run.run #[] with
  | (.error e, log) => (.error e, log)
  | (.ok x, log) =>
    let (outcome, entries) := x.runLogged limit
    (Execution.ofOutcome outcome, log ++ entries)

end CalcLang
