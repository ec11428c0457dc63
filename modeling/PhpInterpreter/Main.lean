import PhpInterpreter.Command

/-!
The program on the command line.
-/

namespace PhpInterpreter

/-- The whole of standard input. -/
partial def readAll (stream : IO.FS.Stream) (before : String) : IO String := do
  let line ← stream.getLine
  if line.isEmpty then return before else readAll stream (before ++ line)

/-- The code of the failure to read a folder as a file. -/
def folderCode : UInt32 := 21

/-- Looks up a file; only a missing one is no failure. Below a file everything is missing. -/
def lookUp (name : String) : IO Lookup := do
  try
    return .file (← IO.FS.readFile (Path.ofText name).text)
  catch
    | .noFileOrDirectory .. => return .absent
    | .inappropriateType path code details =>
      if code = folderCode then throw (.inappropriateType path code details)
      else return .absent
    | e => throw e

/-- Fetches the input a request needs and does what it asks for. -/
def serve (s : Settings) (request : Request) : IO Outcome := do
  match request with
  | .invoke i =>
    match i.named? with
    | none => return request.outcome s (← readAll (← IO.getStdin) "") fun _ => .absent
    | some name =>
      let found ← lookUp name
      return request.outcome s "" fun _ => found
  | _ => return request.outcome s "" fun _ => .absent

/-- Answers the arguments; the result is the exit code. -/
def runCommand (arguments : List String) : IO UInt32 := do
  let level? ← IO.getEnv Settings.levelVariable
  let trace? ← IO.getEnv Settings.traceVariable
  let settings := Settings.ofVariables fun name =>
    if name = Settings.levelVariable then level? else trace?
  let outcome ← serve settings (.ofArguments arguments)
  IO.print outcome.out
  IO.eprint outcome.err
  match outcome.ending with
  | .refused r => IO.eprintln r.message
  | _ => pure ()
  return outcome.ending.exitCode.toUInt32

end PhpInterpreter

def main (arguments : List String) : IO UInt32 := PhpInterpreter.runCommand arguments
