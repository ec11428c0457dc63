import PhpInterpreter.Folder
import PhpInterpreter.Node.Print
import PhpInterpreter.Report
import PhpInterpreter.Text.Basic

/-!
The command line: runs a program, or prints its tree. The program is in a file, on standard input
or the argument itself, as source text or as a tree in JSON.
-/

namespace PhpInterpreter

/-- What the arguments say about a run. -/
structure Invocation where
  /-- The program is a tree in JSON. -/
  json : Bool
  /-- The tree is printed and not run. -/
  tree : Bool
  argument? : Option String
deriving DecidableEq, Inhabited

inductive Request
  | help
  | unexpected (argument : String)
  | invoke (i : Invocation)
deriving DecidableEq, Inhabited

namespace Request

/-- Reads arguments from left to right, up to the first that decides. -/
def read (i : Invocation) : List String → Request
  | [] => invoke i
  | a :: rest =>
    if a = "--ast" then read { i with json := true } rest
    else if a = "--tree" then read { i with tree := true } rest
    else if a = "-h" || a = "--help" then help
    else if i.argument?.isNone then read { i with argument? := some a } rest
    else unexpected a

def ofArguments (arguments : List String) : Request := read ⟨false, false, none⟩ arguments

end Request

/-- Why there was nothing to run. -/
inductive Refusal
  | unexpectedArgument (argument : String)
  | noInput
  | badTree (text : String) (fault : Node.LoadFault)
deriving DecidableEq, Inhabited

def Refusal.message : Refusal → String
  | unexpectedArgument a => "Unexpected argument: " ++ a
  | noInput => "No input provided on stdin"
  | badTree text fault => "Invalid JSON AST: " ++ fault.message text

/-- How a command ended. -/
inductive Ending
  | done
  /-- By an error of the program, which was reported. -/
  | fatal
  | refused (r : Refusal)
  /-- The argument names something, but no text. -/
  | noFile (l : Lookup)
  /-- By a condition outside the language. -/
  | crashed (f : Failure)
deriving Inhabited

def Ending.exitCode : Ending → Nat
  | done => 0
  | fatal => 255
  | refused _ | noFile _ | crashed _ => 1

/-- What a command wrote, and how it ended. -/
structure Outcome where
  out : String
  err : String
  ending : Ending
deriving Inhabited

namespace Outcome

/-- The outcome of a run that logged `log`. -/
def ofRun (s : Settings) (out : String) (log : List Diagnostic) : Option Failure → Outcome
  | none => ⟨out, s.logText log, .done⟩
  | some f =>
    match f.report? with
    | some report => ⟨out, s.logText log ++ s.errorText report, .fatal⟩
    | none => ⟨out, s.logText log, .crashed f⟩

end Outcome

namespace Invocation

/-- The name or text the program comes from; none if it is on standard input. -/
def named? (i : Invocation) : Option String :=
  i.argument?.filter fun a => a != "" && a != "-"

/-- The text of the program: on standard input, in the file the argument names, or the argument
itself. -/
def text (i : Invocation) (input : String) (find : String → Lookup) : Except Ending String :=
  match i.named? with
  | none => if input.isEmpty then .error (.refused .noInput) else .ok input
  | some a =>
    match find a with
    | .file contents => .ok (String.ofList (Text.unixLines contents.toList))
    | .absent => .ok a
    | l => .error (.noFile l)

/-- The tree of the program. -/
def root (i : Invocation) (text : String) : Except (Sum Refusal Failure) Node :=
  if i.json then (Node.load text).mapError fun fault => .inl (.badTree text fault)
  else (Source.tree text).mapError fun e => .inr (.source e)

/-- Prints a tree, or runs it on a new machine. -/
def handle (s : Settings) (i : Invocation) (n : Node) : Outcome :=
  if i.tree then ⟨n.pretty "  ", "", .done⟩
  else
    match Machine.init.execute n with
    | (.ok _, m) => .ofRun s m.output m.log none
    | (.error f, m) => .ofRun s m.output m.log (some f)

def outcome (s : Settings) (i : Invocation) (input : String) (find : String → Lookup) : Outcome :=
  match i.text input find with
  | .error ending => ⟨"", "", ending⟩
  | .ok text =>
    match i.root text with
    | .error (.inl r) => ⟨"", "", .refused r⟩
    | .error (.inr f) => .ofRun s "" [] (some f)
    | .ok n => i.handle s n

end Invocation

namespace Request

def usage : String := "usage: phpwalk [--ast] [--tree] [FILE|-|SOURCE]\n"

/-- Does what the arguments ask for. -/
def outcome (s : Settings) (input : String) (find : String → Lookup) : Request → Outcome
  | help => ⟨usage, "", .done⟩
  | unexpected a => ⟨"", "", .refused (.unexpectedArgument a)⟩
  | invoke i => i.outcome s input find

end Request

end PhpInterpreter
