import PhpInterpreter.Machine.Program
import PhpInterpreter.Node.Load
import PhpInterpreter.Source.Tree

/-!
What is said about a run beside its output: the diagnostics it logged, from a level on, and the
error that ended it.
-/

namespace PhpInterpreter

/-- Levels of the log. -/
inductive LogLevel
  | all
  | debug
  | info
  | warning
  | error
  | critical
deriving DecidableEq, Inhabited

namespace LogLevel

def rank : LogLevel → Nat
  | all => 0
  | debug => 10
  | info => 20
  | warning => 30
  | error => 40
  | critical => 50

def ofName? : String → Option LogLevel
  | "NOTSET" => some all
  | "DEBUG" => some debug
  | "INFO" => some info
  | "WARNING" => some warning
  | "WARN" => some warning
  | "ERROR" => some error
  | "CRITICAL" => some critical
  | "FATAL" => some critical
  | _ => none

/-- The level a setting names; `info` if there is none or the name is unknown. -/
def ofSetting : Option String → LogLevel
  | none => info
  | some s => (ofName? (Text.upper (Text.trim s))).getD info

end LogLevel

/-- Notices are logged as information. -/
def Severity.level : Severity → LogLevel
  | notice => .info
  | warning => .warning

/-- How much is said. -/
structure Settings where
  /-- Diagnostics below this level are not shown. -/
  level : LogLevel
  /-- Whether the interpreter's own trace follows an error. -/
  trace : Bool
deriving DecidableEq, Inhabited

namespace Settings

/-- The environment variables the settings come from. -/
def levelVariable : String := "PHPWALK_LOG_LEVEL"

def traceVariable : String := "PHPWALK_DEBUG_PY_TRACE"

/-- Whether a setting asks for the trace. -/
def isOn : Option String → Bool
  | none => false
  | some s => ["1", "true", "yes", "on"].contains (Text.lower (Text.trim s))

/-- The settings in an environment. -/
def ofVariables (value? : String → Option String) : Settings :=
  ⟨.ofSetting (value? levelVariable), isOn (value? traceVariable)⟩

/-- The diagnostics that are shown, a line each. -/
def logText (s : Settings) (log : List Diagnostic) : String :=
  String.join ((log.filter fun d => s.level.rank ≤ d.remark.severity.level.rank).map fun d =>
    "PHP " ++ d.text ++ "\n")

/-- An error, with the heading of the trace if there is to be one. -/
def errorText (s : Settings) (report : String) : String :=
  report ++ "\n" ++ if s.trace then "\nPython traceback:\n" else ""

end Settings

/-- Why a text did not run to its end. -/
inductive Failure
  | source (e : Source.SourceError)
  | run (f : Fault)
deriving Inhabited

namespace Failure

/-- What is said about an error of the language; nothing is said about other conditions. -/
def report? : Failure → Option String
  | source e => if e.isParseError then some ("PHP Parse error:  " ++ e.text) else none
  | run (.error e) => some ("PHP Fatal error:  " ++ e.text)
  | run (.crash _) => none

end Failure

namespace Machine

/-- Runs a tree; the result is the value of its last statement. -/
def execute (m : Machine) (n : Node) : Except Failure Value × Machine :=
  let (r, m) := n.run m
  (r.mapError .run, m)

/-- Runs a source text; one that is no program leaves the machine as it is. -/
def interpret (m : Machine) (text : String) : Except Failure Value × Machine :=
  match Source.tree text with
  | .error e => (.error (.source e), m)
  | .ok n => m.execute n

end Machine

end PhpInterpreter
