import CalcLang.CommandLine.Options
import CalcLang.Source
import CalcLang.Tree.Outline

/-! What the command line answers. The source is run stage by stage; a dump is written as
soon as its stage has succeeded, so the dumps before a failure remain. The globals are
written after a run that succeeded. -/
namespace CalcLang

inductive ReadError where
  | notFound
  | isDirectory
  | notDirectory
  | permissionDenied
  | nameTooLong
  | invalidText
  | other (text : String)
  deriving DecidableEq, Repr

def ReadError.message : ReadError → String
  | notFound => "No such file or directory (os error 2)"
  | isDirectory => "Is a directory (os error 21)"
  | notDirectory => "Not a directory (os error 20)"
  | permissionDenied => "Permission denied (os error 13)"
  | nameTooLong => "File name too long (os error 36)"
  | invalidText => "stream did not contain valid UTF-8"
  | other text => text

inductive CommandError where
  | options (e : OptionError)
  | reading (path : Option String) (cause : ReadError)
  | program (e : Failure)
  deriving DecidableEq

namespace CommandError

def parts : CommandError → String × Option String
  | options (.missingValue option) => ("Missing value after " ++ option, none)
  | options (.invalidDepth text cause) => ("Invalid call depth '" ++ text ++ "'", some cause.message)
  | options (.unknown option) => ("Unknown option '" ++ option ++ "'", none)
  | options .secondPath => ("Only one input file is supported", none)
  | reading path cause => ("Reading " ++ path.getD "stdin", some cause.message)
  | program e => (e.message, none)

def text (e : CommandError) : String :=
  match e.parts with
  | (message, none) => "Error: " ++ message ++ "\n"
  | (message, some cause) => "Error: " ++ message ++ "\n\nCaused by:\n    " ++ cause ++ "\n"

end CommandError

structure Report where
  code : Nat
  stdout : String
  stderr : String
  deriving DecidableEq, Repr

def Report.failed (stdout : String) (e : CommandError) : Report := ⟨1, stdout, e.text⟩

namespace Options

def tokenDump (o : Options) (tokens : List Token) : String :=
  if o.showTokens then String.join (tokens.map fun t => t.text ++ "\n") else ""

def treeDump (o : Options) (p : Program) : String := if o.showTree then p.text else ""

def codeDump (o : Options) (x : Executable) : String := if o.showCode then x.listing else ""

def resultText (e : Execution) : String :=
  let globals := e.render
  if globals.isEmpty then "" else globals ++ "\n"

def execute (o : Options) (source : String) : Report :=
  match tokenize source with
  | .error e => .failed "" (.program (.lex e))
  | .ok tokens =>
    let out := o.tokenDump tokens
    match Program.ofTokens tokens with
    | .error e => .failed out (.program (.parse e))
    | .ok program =>
      let out := out ++ o.treeDump program
      match program.check with
      | .error e => .failed out (.program (.check e))
      | .ok () =>
        match program.compile with
        | .error e => .failed out (.program (.compile e))
        | .ok x =>
          let out := out ++ o.codeDump x
          match Execution.ofOutcome (x.run o.callDepth) with
          | .error e => .failed out (.program e)
          | .ok execution => ⟨0, out ++ resultText execution, ""⟩

def respond (o : Options) (input : Except ReadError ByteArray) : Report :=
  match input with
  | .error cause => .failed "" (.reading o.path cause)
  | .ok bytes =>
    match String.fromUTF8? bytes with
    | none => .failed "" (.reading o.path .invalidText)
    | some source => o.execute source

end Options

/-- The report on a command line, where `read` gives the bytes of a path or, without one, of
standard input. Nothing is read unless all arguments are in order. -/
def commandLine {m : Type → Type} [Monad m] (args : List String)
    (read : Option String → m (Except ReadError ByteArray)) : m Report :=
  match Options.parse args with
  | .error e => pure (.failed "" (.options e))
  | .ok o => do return o.respond (← read o.path)

end CalcLang
