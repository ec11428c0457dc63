import PhpInterpreter.Shell

/-!
The interactive shell on standard input and output.
-/

namespace PhpInterpreter.Shell

/-- Reads lines until Enter submits their text; none at the end of the input. -/
partial def readText (input output : IO.FS.Stream) (before : String) : IO (Option String) := do
  output.putStr (if before.isEmpty then "php> " else "... ")
  output.flush
  let line ← input.getLine
  if line.isEmpty then return none
  let text := before ++ (if Text.endsWith "\n" line then (line.dropEnd 1).toString else line)
  let edits := Keystroke.edits text .enter
  if edits.contains .submit then return some text
  readText input output (edits.foldl Edit.apply text)

/-- Answers texts until the input ends or a failure stops the shell. -/
partial def converse (input output : IO.FS.Stream) (sh : Shell) : IO Unit := do
  match ← readText input output "" with
  | none => output.putStrLn ""
  | some text =>
    let (reply, next) := sh.submit text
    if reply.clears then output.putStr "\x1b[2J\x1b[H"
    output.putStr reply.out
    output.flush
    IO.eprint reply.err
    match next with
    | .ok sh => converse input output sh
    | .error _ => return ()

/-- Greets and answers. -/
def interact (s : Settings) : IO Unit := do
  let output ← IO.getStdout
  output.putStr greeting
  converse (← IO.getStdin) output (init s)

end PhpInterpreter.Shell
