import PhpInterpreter.Json
import PhpInterpreter.Value

/-!
What can go wrong, and what is merely remarked on: remarks (notices and warnings), causes of
language errors, and crashes, which are outside the language.
-/

namespace PhpInterpreter

inductive Severity
  | notice
  | warning
deriving DecidableEq, Inhabited

namespace Severity

def label : Severity → String
  | notice => "Notice"
  | warning => "Warning"

end Severity

/-- What a program is told without being stopped. Numbers are told as the texts they have. -/
inductive Remark
  | undefinedVariable (name : String)
  | missingOffset (shown : String)
  | missingIndex (key : String)
  | missingCharacter (shown : String)
  | arrayToString
  | trailingData
  | notNumeric
  | illegalOffsetType (type : String)
  | illegalStringOffset (key : String)
  | offsetBeforeStart (shown : String)
  | scalarAsArray
  | onlyFirstCharacter
deriving DecidableEq, Inhabited

namespace Remark

def severity : Remark → Severity
  | undefinedVariable _ | missingOffset _ | missingIndex _ | missingCharacter _ | arrayToString
  | trailingData => .notice
  | notNumeric | illegalOffsetType _ | illegalStringOffset _ | offsetBeforeStart _ | scalarAsArray
  | onlyFirstCharacter => .warning

def message : Remark → String
  | undefinedVariable name => "Undefined variable: " ++ name
  | missingOffset n => "Undefined offset: " ++ n
  | missingIndex k => "Undefined index: " ++ k
  | missingCharacter n => "Uninitialized string offset: " ++ n
  | arrayToString => "Array to string conversion"
  | trailingData => "A non well formed numeric value encountered"
  | notNumeric => "A non-numeric value encountered"
  | illegalOffsetType t => "Illegal offset type " ++ t
  | illegalStringOffset k => "Illegal string offset '" ++ k ++ "'"
  | offsetBeforeStart n => "Illegal string offset:  " ++ n
  | scalarAsArray => "Cannot use a scalar value as an array"
  | onlyFirstCharacter => "Only the first byte will be assigned to the string offset"

end Remark

/-- A remark in the log, with the line of the node it is about. -/
structure Diagnostic where
  remark : Remark
  line : Json
deriving Inhabited

namespace Diagnostic

def text (d : Diagnostic) : String :=
  d.remark.severity.label ++ ": " ++ d.remark.message ++
    (if d.line.isNull then "" else " on line " ++ d.line.shown)

end Diagnostic

/-- Errors the language itself defines. -/
inductive Fatal
  | invalidLiteral (shown : String)
  | temporaryWrite
  | referenceInArray
  | referenceToElement
  | referenceToTemporary
  | referenceToCharacter
  | emptyCharacter
  | divisionByZero
  | moduloByZero
  | objectToString (className : String)
  | objectAsArray (className : String)
  | appendRead
  | appendToString
  | characterAsArray
  | variableVariable
  | globalTarget
  | unsetTarget
deriving DecidableEq, Inhabited

namespace Fatal

def message : Fatal → String
  | invalidLiteral s => "Invalid numeric literal " ++ s
  | temporaryWrite => "Cannot use temporary expression in write context"
  | referenceInArray => "References inside array literals are not supported"
  | referenceToElement => "Cannot create references to array elements"
  | referenceToTemporary => "Cannot assign by reference to a temporary expression"
  | referenceToCharacter => "Cannot create references to/from string offsets"
  | emptyCharacter => "Cannot assign an empty string to a string offset"
  | divisionByZero => "Division by zero"
  | moduloByZero => "Modulo by zero"
  | objectToString c => "Object of class " ++ c ++ " could not be converted to string"
  | objectAsArray c => "Cannot use object of type " ++ c ++ " as array"
  | appendRead => "Cannot use [] for reading"
  | appendToString => "[] operator not supported for strings"
  | characterAsArray => "Cannot use string offset as an array"
  | variableVariable => "Variable variables are not supported"
  | globalTarget => "global expects plain variable names"
  | unsetTarget => "unset() only supports plain variables"

end Fatal

/-- Violated contracts of the evaluator and the environment: malformed trees, misuse of the
execution stack, unknown scopes and slots. -/
inductive Breach
  | stackUnderflow
  | stackEmpty
  | noProgram
  | leaked (count : Nat)
  | missingOperand
  | notAValue (found : String)
  | notALocation (found : String)
  | wrongNode (found expected : String)
  | unknownKind (kind : String)
  | emptyStatement
  | unknownAssignment (operator : String)
  | unknownBinary (operator : String)
  | unknownUnary (operator : String)
  | subscriptWithoutIntent
  | namelessVariable
  | characterOfNoString
  | unknownScope (index : Int)
  | scopeKind (kind : String)
  | leaveGlobal
  | releaseGlobal
  | stillActive (index : Int)
  | noOwner (slot : Int)
  | partialAlias
  | characterStore
  | notStored (slot scope : Int)
  | noContainer
deriving DecidableEq, Inhabited

namespace Breach

def message : Breach → String
  | stackUnderflow => "Execution stack underflow"
  | stackEmpty => "Execution stack is empty"
  | noProgram => "No program to run"
  | leaked n => "Execution stack leaked " ++ decimalText n ++ " item(s) after a statement"
  | missingOperand => "Missing operand node"
  | notAValue s => "Expected a value on the stack, found " ++ s
  | notALocation s => "Expected a location on the stack, found " ++ s
  | wrongNode s k => "Evaluate wrong AST node: " ++ s ++ ", should be " ++ k
  | unknownKind k => "Unknown expression type: " ++ k
  | emptyStatement => "Expression statement without an expression"
  | unknownAssignment o => "Unknown assignment operator " ++ o
  | unknownBinary o => "Unknown binary operator " ++ o
  | unknownUnary o => "Unknown unary operator " ++ o
  | subscriptWithoutIntent => "None instruction in offset node"
  | namelessVariable => "Variable node without a name"
  | characterOfNoString => "Character location does not hold a string"
  | unknownScope i => "Unknown environment index " ++ decimalText i
  | scopeKind k => "Cannot create an environment of kind '" ++ k ++ "'"
  | leaveGlobal => "Cannot leave the global environment"
  | releaseGlobal => "The global environment cannot be released"
  | stillActive i => "Environment " ++ decimalText i ++ " is still active"
  | noOwner s => "Slot " ++ decimalText s ++ " has no owner"
  | partialAlias => "Only whole variable slots can be aliased"
  | characterStore => "Character locations are written by the assignment evaluator"
  | notStored s i =>
    "Slot " ++ decimalText s ++ " is not stored in environment " ++ decimalText i
  | noContainer => "Array path does not resolve to a container"

end Breach

/-- Why a run was stopped with an error. -/
inductive Cause
  | fatal (e : Fatal)
  | operandTypes (left operator right : String)
  | breach (e : Breach)
deriving DecidableEq, Inhabited

namespace Cause

def message : Cause → String
  | fatal e => e.message
  | operandTypes l o r => "Unsupported operand types: " ++ l ++ " " ++ o ++ " " ++ r
  | breach e => e.message

end Cause

/-- A place in a program; a tree from elsewhere may call its lines anything. -/
structure Place where
  line : Json
  column : Option Int
deriving Inhabited

/-- An error with the place of the node that was being evaluated. -/
structure RunError where
  cause : Cause
  place? : Option Place
deriving Inhabited

namespace RunError

/-- The first place with a line stays. -/
def locate (e : RunError) (p : Place) : RunError :=
  if e.place?.isSome || p.line.isNull then e else { e with place? := some p }

def text (e : RunError) : String :=
  e.cause.message ++
    match e.place? with
    | none => ""
    | some ⟨line, none⟩ => " (line " ++ line.shown ++ ")"
    | some ⟨line, some column⟩ => " (line " ++ line.shown ++ ", col " ++ decimalText column ++ ")"

end RunError

/-- Conditions outside the language, which stop a run where it stands. -/
inductive Crash
  /-- A node was needed and other data found. -/
  | notANode
  /-- Values of one type name have no common content to compare. -/
  | incomparable
  /-- A number has no double. -/
  | outOfRange
  /-- A decimal integer has more than 4300 digits. -/
  | digitLimit
  /-- Data of this shape cannot be iterated or looked up. -/
  | wrongShape
  /-- There is no last element under this name. -/
  | noEntry
deriving DecidableEq, Inhabited

inductive Fault
  | error (e : RunError)
  | crash (c : Crash)
deriving Inhabited

namespace Fault

def ofCause (c : Cause) : Fault := .error ⟨c, none⟩

def fatal (e : Fatal) : Fault := ofCause (.fatal e)

def breach (e : Breach) : Fault := ofCause (.breach e)

/-- Errors get the place of the node, crashes have none. -/
def locate (p : Place) : Fault → Fault
  | error e => error (e.locate p)
  | crash c => crash c

end Fault

/-- A computation that may leave remarks and may stop; remarks left before it stops are kept. -/
abbrev Noting (α : Type) : Type := ExceptT Fault (StateM (List Remark)) α

namespace Noting

def remark (r : Remark) : Noting Unit := modify (· ++ [r])

def fatal {α : Type} (e : Fatal) : Noting α := throw (Fault.fatal e)

def crash {α : Type} (c : Crash) : Noting α := throw (Fault.crash c)

/-- A remark that has to be made first, and may have no text. A quiet computation does not make
it. -/
def mention (quiet : Bool) (r : Except Crash Remark) : Noting Unit :=
  if quiet then pure ()
  else
    match r with
    | .ok r => remark r
    | .error c => crash c

/-- The outcome and the remarks. -/
def outcome {α : Type} (x : Noting α) : Except Fault α × List Remark := x.run.run []

end Noting

end PhpInterpreter
