import PhpInterpreter.Machine.Eval

/-!
Running programs: statements one after the other, each on an execution stack that is empty again
after it.
-/

namespace PhpInterpreter

namespace Run

/-- Evaluates the item on top of the stack; a value or a location stays as it is. -/
def evaluate : Run Unit := do
  match ← pop with
  | .pending t intent? => within t (t.eval intent?)
  | i => push i

/-- A language error clears the stack, a crash leaves it. -/
def clearing {α : Type} (act : Run α) : Run α :=
  ExceptT.mk fun m =>
    match act.run m with
    | (.error (.error e), m) => (.error (.error e), { m with stack := [] })
    | r => r

/-- Runs a statement; its value is the result. -/
def statement (t : Term) : Run Value := do
  pushPending t none
  let v ← clearing do
    evaluate
    return (← popView).value.defined
  let count := (← get).stack.length
  if count = 0 then return v
  else
    clear
    breach (.leaked count)

/-- Runs statements; the result is that of the last one. -/
def statements : List Term → Value → Run Value
  | [], result => pure result
  | t :: rest, _ => do
    let result ← statement t
    statements rest result

/-- Runs a tree: the statements of a program, or one statement of another kind. -/
def program : Term → Run Value
  | .program _ iterable ts => do
    listed iterable
    statements ts .null
  | t => statements [t] .null

/-- Evaluates the top of the stack as a node of a kind, whatever it is to be used for. -/
def evaluateAs (kind : String) : Run Unit := do
  let (t, intent?) ← popOwn kind
  match t with
  | .variable .. | .subscript .. => t.eval intent?
  | t => t.eval none

end Run

namespace Node

/-- Runs a tree on a machine. -/
def run (n : Node) (m : Machine) : Except Fault Value × Machine := (Run.program n.toTerm).outcome m

/-- Whether the value of a program is worth showing: it ends in an expression that is no
assignment. -/
def showsResult (n : Node) : Except Crash Bool :=
  let last? : Except Crash (Option Datum) := match n.field "children" with
    | .list items => .ok items.getLast?
    | .dict (_ :: _) => .error .noEntry
    | .scalar (.string _) => .ok none
    | d => if d.truthy then .error .wrongShape else .ok none
  last?.map fun
    | some (.node s) =>
      s.kind == "expressionstatement" && (s.field "expression").kind? != some "assign"
    | _ => false

end Node

end PhpInterpreter
