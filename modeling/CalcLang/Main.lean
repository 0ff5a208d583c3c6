import CalcLang.CommandLine.Report

/-! The program: reads a file or standard input and runs it. -/
namespace CalcLang

def hasNumber (code number : UInt32) : Bool :=
  -- some calls report the number negated
  code = number || code = 0 - number

def ReadError.ofIO : IO.Error → ReadError
  | .noFileOrDirectory .. => .notFound
  | .inappropriateType _ code _ => if hasNumber code 20 then .notDirectory else .isDirectory
  | .permissionDenied .. => .permissionDenied
  | e@(.invalidArgument _ code _) => if hasNumber code 36 then .nameTooLong else .other (toString e)
  | e => .other (toString e)

def readInput (path : Option String) : IO (Except ReadError ByteArray) := do
  try
    match path with
    | some path => return .ok (← IO.FS.readBinFile path)
    | none => return .ok (← (← IO.getStdin).readBinToEnd)
  catch e => return .error (.ofIO e)

end CalcLang

def main (args : List String) : IO UInt32 := do
  let report ← CalcLang.commandLine args CalcLang.readInput
  (← IO.getStdout).putStr report.stdout
  (← IO.getStderr).putStr report.stderr
  return UInt32.ofNat report.code
