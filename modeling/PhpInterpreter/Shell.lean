import PhpInterpreter.Report
import PhpInterpreter.Text.Basic
import PhpInterpreter.Value.Render

/-!
The interactive shell: a line is a command after a slash, or a program that runs on the machine the
lines before it left.
-/

namespace PhpInterpreter

namespace Shell

/-- Characters that are not seen and come with pasted text. -/
def isInvisible (c : Char) : Bool :=
  ['\u200b', '\u200c', '\u200d', '\ufeff', '\u00a0', '\r'].contains c

def normalize (text : String) : String :=
  String.ofList (text.toList.filter (!isInvisible ·))

/-- Whether a text is submitted as it is: it is blank, a command, or ends a statement. -/
def isComplete (text : String) : Bool :=
  let stripped := Text.trim text
  stripped.isEmpty || Text.startsWith "/" stripped || Text.endsWith ";" stripped ||
    Text.endsWith "?>" stripped

end Shell

inductive ShellCommand
  | clear
  | trace
  | reset
  | vars
deriving DecidableEq, Inhabited

namespace ShellCommand

def all : List ShellCommand := [clear, trace, reset, vars]

def name : ShellCommand → String
  | clear => "/clear"
  | trace => "/py-traceback"
  | reset => "/reset"
  | vars => "/vars"

def description : ShellCommand → String
  | clear => "Clear the terminal screen"
  | trace => "Toggle Python traceback on errors"
  | reset => "Reset the REPL environment"
  | vars => "Show variables of the current scope"

def ofName? (name : String) : Option ShellCommand := all.find? (·.name == name)

/-- The commands that a text up to the cursor begins. -/
def completions (before : String) : List ShellCommand :=
  if Text.startsWith "/" before then all.filter fun c => Text.startsWith before c.name else []

/-- The setting an argument of the trace command asks for. -/
def switched? (current : Bool) (argument : String) : Option Bool :=
  let word := Text.lower argument
  if ["on", "1", "true", "yes"].contains word then some true
  else if ["off", "0", "false", "no"].contains word then some false
  else if argument = "" then some (!current)
  else none

end ShellCommand

/-- Keys with a meaning of their own. -/
inductive Keystroke
  | enter
  | backspace
deriving DecidableEq, Inhabited

/-- What a key does to the text before the cursor. -/
inductive Edit
  | submit
  | insert (text : String)
  | delete (count : Nat)
  | complete
deriving DecidableEq, Inhabited

namespace Edit

def apply (text : String) : Edit → String
  | insert s => text ++ s
  | delete n => String.ofList (text.toList.take (text.length - n))
  | submit | complete => text

end Edit

namespace Keystroke

/-- Enter submits what is complete or has an empty last line, and opens a line otherwise.
Backspace takes a character and offers the commands again. -/
def edits (text : String) : Keystroke → List Edit
  | enter =>
    if Shell.isComplete text || (Text.lastLine text.toList).all Text.isBlank then [.submit]
    else [.insert "\n"]
  | backspace =>
    let delete := Edit.delete 1
    if Text.startsWith "/" (delete.apply text) then [delete, .complete] else [delete]

end Keystroke

structure Shell where
  machine : Machine
  settings : Settings
deriving Inhabited

/-- What is written in answer to a line; the screen may be cleared before. -/
structure Reply where
  clears : Bool
  out : String
  err : String
deriving DecidableEq, Inhabited

namespace Reply

def silent : Reply := ⟨false, "", ""⟩

def say (out : String) : Reply := ⟨false, out, ""⟩

def complain (err : String) : Reply := ⟨false, "", err⟩

end Reply

/-- What comes from the terminal. -/
inductive ShellEvent
  | line (text : String)
  | interrupt
deriving DecidableEq, Inhabited

namespace Shell

def init (s : Settings) : Shell := ⟨.init, s⟩

def greeting : String := "phpwalk repl: Ctrl-D to exit, / for commands\n"

/-- The variables of the current scope, a line each. -/
def variablesText (vs : List (String × Value)) : String :=
  if vs.isEmpty then "(no variables)\n"
  else String.join (vs.map fun (name, v) => "$" ++ name ++ " = " ++ v.render 0 ++ "\n")

/-- Follows a command. -/
def obey (sh : Shell) (argument : String) : ShellCommand → Reply × Except Failure Shell
  | .clear => (⟨true, "", ""⟩, .ok sh)
  | .trace =>
    match ShellCommand.switched? sh.settings.trace argument with
    | none => (.complain "Usage: /py-traceback [on|off]\n", .ok sh)
    | some on =>
      (.say ("Python traceback: " ++ (if on then "on" else "off") ++ "\n"),
        .ok { sh with settings := { sh.settings with trace := on } })
  | .reset => (.say "Environment reset.\n", .ok { sh with machine := .init })
  | .vars =>
    match (Run.inScope (Scoped.bindings none)).outcome sh.machine with
    | (.ok vs, _) => (.say (variablesText vs), .ok sh)
    | (.error f, _) => (.silent, .error (.run f))

/-- The value of a program that ends in an expression. -/
def resultText (n : Node) (v : Value) : Except Failure String :=
  match n.showsResult with
  | .ok true => .ok (v.render 0 ++ "\n")
  | .ok false => .ok ""
  | .error c => .error (.run (.crash c))

/-- Answers a failure: an error of the language is reported and the shell goes on. -/
def fail (sh : Shell) (f : Failure) : Reply × Except Failure Shell :=
  let said := sh.settings.logText sh.machine.log
  match f.report? with
  | some report => (⟨false, sh.machine.output, said ++ sh.settings.errorText report⟩, .ok sh)
  | none => (⟨false, sh.machine.output, said⟩, .error f)

/-- A machine with nothing written and nothing logged. -/
def quiet (m : Machine) : Machine := { m with output := "", log := [] }

/-- Runs a program and shows its value. -/
def evaluate (sh : Shell) (text : String) : Reply × Except Failure Shell :=
  let start := quiet sh.machine
  match Source.tree text with
  | .error e => fail { sh with machine := start } (.source e)
  | .ok n =>
    let (r, m) := start.execute n
    let sh := { sh with machine := m }
    match r >>= resultText n with
    | .ok shown => (⟨false, m.output ++ shown, sh.settings.logText m.log⟩, .ok sh)
    | .error f => fail sh f

/-- Answers a line. -/
def submit (sh : Shell) (text : String) : Reply × Except Failure Shell :=
  let text := normalize text
  let stripped := Text.trim text
  if stripped.isEmpty then (.silent, .ok sh)
  else if Text.startsWith "/" stripped then
    let (name, argument) := Text.splitWord stripped
    match ShellCommand.ofName? name with
    | some c => sh.obey argument c
    | none => (.complain ("Unknown command: " ++ name ++ "\n"), .ok sh)
  else sh.evaluate text

def step (sh : Shell) : ShellEvent → Reply × Except Failure Shell
  | .line text => sh.submit text
  | .interrupt => (.say "KeyboardInterrupt\n", .ok sh)

/-- The replies to events up to the end of the input, or up to a failure the shell does not
survive. -/
def replies (sh : Shell) : List ShellEvent → List Reply × Option Failure
  | [] => ([.say "\n"], none)
  | e :: rest =>
    match sh.step e with
    | (reply, .ok sh) =>
      let (more, f?) := sh.replies rest
      (reply :: more, f?)
    | (reply, .error f) => ([reply], some f)

/-- A session from the greeting on. -/
def session (s : Settings) (events : List ShellEvent) : List Reply × Option Failure :=
  let (more, f?) := (init s).replies events
  (.say greeting :: more, f?)

end Shell

end PhpInterpreter
