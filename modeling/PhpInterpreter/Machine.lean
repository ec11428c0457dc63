import PhpInterpreter.Environment
import PhpInterpreter.Operator
import PhpInterpreter.Term
import PhpInterpreter.Value.Render

/-!
The evaluator's state: environment, execution stack, output and log. A value read from a variable
or an array element is a view: until the place it came from is overwritten, writes below that place
show in it.
-/

namespace PhpInterpreter

/-- What the consumer of a result needs: a value, a place, or a value without remarks about what
is missing. -/
inductive Intent
  | read
  | write
  | isset
deriving DecidableEq, Inhabited

def Intent.label : Intent → String
  | read => "READ"
  | write => "WRITE"
  | isset => "ISSET"

/-- A value, and the place it was read from while it is still there. -/
structure View where
  value : Value
  home? : Option Location
deriving Inhabited

namespace View

/-- A value that is nowhere else. -/
def fresh (v : Value) : View := ⟨v, none⟩

/-- The view after `value` was stored at `l`: a write at or above its home detaches it, a write
below its home shows in it. -/
def follow (l : Location) (value : Value) (v : View) : View :=
  match v.home? with
  | none => v
  | some home =>
    if home.slot ≠ l.slot then v
    else if l.path.isPrefixOf home.path then fresh v.value
    else if home.path.isPrefixOf l.path then
      ⟨(v.value.setAt? (l.path.drop home.path.length) value).getD v.value, some home⟩
    else v

end View

/-- Items of the execution stack. -/
inductive Item
  | pending (term : Term) (intent? : Option Intent)
  | value (v : View)
  | location (l? : Option Location)
deriving Inhabited

namespace Item

/-- The display form; foreign data has no kind to show. -/
def display : Item → Except Crash String
  | pending .absent _ => .error .notANode
  | pending t i? =>
    match t.kind? with
    | none => .error .notANode
    | some kind => .ok ("<pending " ++ kind ++ " " ++ ((i?.map Intent.label).getD "-") ++ ">")
  | value v => .ok ("<value " ++ v.value.display ++ ">")
  | location l? => .ok ("<location " ++ ((l?.map Location.display).getD "None") ++ ">")

def follow (l : Location) (new : Value) : Item → Item
  | value v => value (v.follow l new)
  | i => i

end Item

structure Machine where
  env : Environment
  /-- The execution stack, top first. -/
  stack : List Item
  /-- Operands that are held while others are evaluated. -/
  held : List View
  output : String
  log : List Diagnostic
deriving Inhabited

def Machine.init : Machine := ⟨.init, [], [], "", []⟩

/-- A computation of the machine; what it did before it stops stays done. -/
abbrev Run (α : Type) : Type := ExceptT Fault (StateM Machine) α

namespace Run

def fatal {α : Type} (e : Fatal) : Run α := throw (Fault.fatal e)

def breach {α : Type} (b : Breach) : Run α := throw (Fault.breach b)

def crash {α : Type} (c : Crash) : Run α := throw (Fault.crash c)

/-- Errors that have no place yet get this one. -/
def located {α : Type} (p : Place) (act : Run α) : Run α :=
  ExceptT.mk fun m =>
    let (r, m) := act.run m
    (r.mapError (Fault.locate p), m)

/-- An operation on the environment. -/
def inScope {α : Type} (act : Scoped α) : Run α :=
  ExceptT.mk fun m =>
    let (r, env) := act.run m.env
    (r.mapError Fault.breach, { m with env := env })

/-- A computation whose remarks are logged for a line, unless it is quiet. -/
def noting {α : Type} (line : Json) (quiet : Bool) (act : Noting α) : Run α :=
  ExceptT.mk fun m =>
    let (r, remarks) := act.outcome
    (r, { m with log := if quiet then m.log else m.log ++ remarks.map (⟨·, line⟩) })

def push (i : Item) : Run Unit := modify fun m => { m with stack := i :: m.stack }

def pop : Run Item := do
  let m ← get
  match m.stack with
  | [] => breach .stackUnderflow
  | i :: rest =>
    set { m with stack := rest }
    return i

def top : Run Item := do
  match (← get).stack with
  | [] => breach .stackEmpty
  | i :: _ => return i

def clear : Run Unit := modify fun m => { m with stack := [] }

/-- Puts a node on the stack to be evaluated. -/
def pushPending (t : Term) (intent? : Option Intent) : Run Unit :=
  match t with
  | .absent => breach .missingOperand
  | t => push (.pending t intent?)

def pushView (v : View) : Run Unit := push (.value v)

def pushValue (v : Value) : Run Unit := push (.value (.fresh v))

def pushLocation (l? : Option Location) : Run Unit := push (.location l?)

/-- The display form of an item in an error. -/
def shown (i : Item) : Run String :=
  match i.display with
  | .ok s => pure s
  | .error c => crash c

/-- The display form of the stack, from the bottom. -/
def shownStack : Run String := do
  let shown ← (← get).stack.reverse.mapM shown
  return "ExecStack([" ++ Text.join ", " shown ++ "])"

def popView : Run View := do
  match ← pop with
  | .value v => return v
  | i => breach (.notAValue (← shown i))

def popLocation : Run (Option Location) := do
  match ← pop with
  | .location l? => return l?
  | i => breach (.notALocation (← shown i))

/-- Pops a pending node of a kind. -/
def popOwn (kind : String) : Run (Term × Option Intent) := do
  match ← pop with
  | .pending t intent? =>
    match t.kind? with
    | none => crash .notANode
    | some found =>
      if found = kind then return (t, intent?) else breach (.wrongNode found kind)
  | .value _ => breach (.wrongNode "value" kind)
  | .location _ => breach (.wrongNode "location" kind)

/-- Takes the pending node off the stack and evaluates it by `act`. -/
def resume (act : Run Unit) : Run Unit := do
  let _ ← pop
  act

/-- Runs `act` while an operand is held, and gives the operand as it is then. -/
def holding (v : View) (act : Run Unit) : Run View :=
  ExceptT.mk fun m =>
    let (r, m) := act.run { m with held := v :: m.held }
    match m.held with
    | w :: rest => (r.map fun _ => w, { m with held := rest })
    | [] => (r.map fun _ => v, m)

/-- The current value at a location. -/
def load (l : Location) : Run Value := do
  return (← get).env.load l

/-- The view of a location. -/
def view (l : Location) : Run View := do
  return ⟨← load l, some l⟩

/-- Stores a value; views on the stack and held operands follow. -/
def store (l : Location) (v : Value) : Run Unit := do
  inScope (Scoped.store l v)
  modify fun m => { m with
    stack := m.stack.map (Item.follow l v)
    held := m.held.map (View.follow l v) }

def print (s : String) : Run Unit := modify fun m => { m with output := m.output ++ s }

/-- Runs a computation: its outcome and the machine after it. -/
def outcome {α : Type} (act : Run α) (m : Machine) : Except Fault α × Machine := act.run.run m

end Run

end PhpInterpreter
