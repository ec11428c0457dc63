import PhpInterpreter.Machine.Place
import PhpInterpreter.Number.Literal

/-!
Evaluation of terms. A node is evaluated off the stack and leaves one item in its place: a
location if it is evaluated to be written, else a value.
-/

namespace PhpInterpreter

namespace Run

/-- The operator of a field; texts that name none are left to the caller. -/
inductive Operator (α : Type)
  | known (op : α)
  | unknown (text : String)
  /-- Lists and objects cannot even be looked up. -/
  | wrongShape

def Operator.ofDatum {α : Type} (ofSymbol? : String → Option α) (d : Datum) : Operator α :=
  match d with
  | .scalar (.string s) =>
    match ofSymbol? s with
    | some op => .known op
    | none => .unknown s
  | .list _ | .dict _ => .wrongShape
  | d => .unknown d.shown

/-- The operators that combine with assignment. -/
def compoundOp? (s : String) : Option BinaryOp :=
  match s with
  | "+=" => some .add
  | "-=" => some .sub
  | "*=" => some .mul
  | "/=" => some .div
  | ".=" => some .concat
  | "%=" => some .mod
  | "**=" => some .pow
  | "??=" => some .coalesce
  | _ => none

/-- Whether an assignment has no operator, or just the equals sign. -/
def isPlain : Datum → Bool
  | .scalar (.string s) => s == "" || s == "="
  | d => !d.truthy

/-- Evaluates a node that is already off the stack; errors without a place get the node's. -/
def within (t : Term) (act : Run Unit) : Run Unit :=
  match t.head? with
  | some h => located h.place act
  | none => act

/-- The value of a literal. -/
def literalValue (h : Head) (d : Datum) : Run Value :=
  match h.kind with
  | "number" =>
    match d.toNumber with
    | .ok n => pure (.number n)
    | .error e => throw e
  | "string" => pure (.string d.toText)
  | "boolean" => pure (.bool d.toBool)
  | _ => pure .null

/-- A variable: a place, a value, or, without intent, a value the name is declared for. -/
def variableBody (h : Head) (name : Datum) (intent? : Option Intent) : Run Unit := do
  let name ← variableName name
  match intent? with
  | some .write => pushLocation (some (← inScope (Scoped.declare name none)))
  | none => pushView (← view (← inScope (Scoped.declare name none)))
  | some intent =>
    match ← inScope (Scoped.lookup name none) with
    | some l => pushView (← view l)
    | none =>
      noting h.place.line (intent == .isset) (Noting.remark (.undefinedVariable name))
      pushValue .undefined

/-- The element or character of a base under a key. -/
def subscriptView (h : Head) (byref quiet : Bool) (base : View) (key : Key) : Run View :=
  match base.value with
  | .string s =>
    if byref then fatal .referenceToCharacter
    else do return .fresh (← noting h.place.line quiet (Value.charAt quiet s key))
  | .array t =>
    match t.get? key with
    | some v => pure ⟨v, base.home?.map (·.child key)⟩
    | none => do
      noting h.place.line quiet (Noting.mention quiet (Remark.missing key))
      return .fresh .null
  | .object _ c => fatal (.objectAsArray c)
  | _ => pure (.fresh .null)

/-- The key of a subscript to be written; none if it has no key. -/
def keyOf (h : Head) (key : Term) (evalKey : Run Unit) : Run (Option Key) :=
  match key with
  | .absent => pure none
  | key => do
    pushPending key (some .read)
    resume (within key evalKey)
    let k ← popView
    return some (← noting h.place.line false k.value.toKey)

/-- One subscript of a place to be written. -/
def levelOf (h : Head) (base : Term) (key? : Option Key) : Level :=
  ⟨h.place, h.byref || base.byref, key?⟩

/-- Reads a subscript: the base before the key. Only the base is read quietly. -/
def readSubscript (h : Head) (quiet : Bool) (base key : Term) (evalBase evalKey : Run Unit) :
    Run Unit := do
  pushPending key (some .read)
  pushPending base (some (if quiet then .isset else .read))
  resume (within base evalBase)
  let b ← popView
  let b ← holding b (resume (within key evalKey))
  let k ← popView
  let k ← noting h.place.line quiet k.value.toKey
  pushView (← subscriptView h (h.byref || base.byref) quiet b k)

/-- A binary operator: the left operand is held while the right one is evaluated. -/
def binaryBody (h : Head) (operator : Datum) (left right : Term)
    (evalLeft : Option Intent → Run Unit) (evalRight : Run Unit) : Run Unit := do
  let op := Operator.ofDatum BinaryOp.ofSymbol? operator
  let intent := match op with
    | .known .coalesce => some .isset
    | _ => some .read
  pushPending right (some .read)
  pushPending left intent
  resume (within left (evalLeft intent))
  let l ← popView
  match op with
  | .wrongShape => crash .wrongShape
  | .unknown s => do
    resume (within right evalRight)
    let _ ← popView
    breach (.unknownBinary s)
  | .known op =>
    match Value.shortCircuit op l.value with
    | some v =>
      let _ ← pop
      pushView (if op = .coalesce then l else .fresh v)
    | none =>
      let l ← holding l (resume (within right evalRight))
      let r ← popView
      if op = .coalesce then pushView ⟨r.value.defined, r.home?⟩
      else pushValue (← noting h.place.line false (Value.applyBinary op l.value r.value))

def unaryBody (h : Head) (operator : Datum) (operand : Term) (evalOperand : Run Unit) :
    Run Unit := do
  pushPending operand (some .read)
  resume (within operand evalOperand)
  let v ← popView
  match operator with
  | .scalar (.string s) =>
    match UnaryOp.ofSymbol? s with
    | some op => pushValue (← noting h.place.line false (Value.applyUnary op v.value))
    | none => breach (.unknownUnary s)
  | d => breach (.unknownUnary d.shown)

/-- Plain assignment: the value is copied before the target is resolved. -/
def assignBody (h : Head) (target value : Term) (evalTarget evalValue : Run Unit) : Run Unit := do
  pushPending target (some .write)
  pushPending value (some .read)
  resume (within value evalValue)
  let v ← popView
  resume (within target evalTarget)
  let l? ← popLocation
  pushView (← writeTo h.place.line l? v.value.defined)

/-- Binds the name on the left to the slot on the right. -/
def referenceBody (target source : Term) (evalSource : Run Unit) : Run Unit :=
  match target with
  | .variable _ name =>
    match source with
    | .variable .. | .subscript .. => do
      pushPending source (some .write)
      resume (within source evalSource)
      match ← popLocation with
      | none => fatal .referenceToElement
      | some l =>
        if l.char?.isSome then fatal .referenceToCharacter
        else if !l.path.isEmpty then fatal .referenceToElement
        else
          let name ← variableName name
          inScope (Scoped.bind name l none)
          pushView (← view l)
    | _ => fatal .referenceToTemporary
  | _ => fatal .referenceToElement

/-- The root variable of a target, for reading only. -/
def peekRoot : Term → Run View
  | .subscript _ base _ => peekRoot base
  | .variable _ name => do
    let name ← variableName name
    match ← inScope (Scoped.lookup name none) with
    | some l => view l
    | none => return .fresh .undefined
  | _ => fatal .temporaryWrite

/-- For `??` a target that is not null stands, and is the result of the assignment. -/
def standing (op : BinaryOp) (target : Term) (levels : List Level) : Run (Option View) :=
  if op = .coalesce then do
    let v ← peekAll levels (← peekRoot target)
    return if v.value.isNull then none else some v
  else pure none

/-- The value at a location; null where there is none. -/
def loadOrNull : Option Location → Run Value
  | some l => load l
  | none => pure .null

/-- Assignment with an operator: the keys of the target, then the value, then the target is
resolved. -/
def compoundBody (h : Head) (op : BinaryOp) (target value : Term) (evalKeys : Run (List Level))
    (evalRoot : Run (Option Location)) (evalValue : Run Unit) : Run Unit := do
  let levels ← evalKeys
  match ← standing op target levels with
  | some v => pushView v
  | none =>
    pushPending value (some .read)
    resume (within value evalValue)
    let v ← popView
    let v ← holding v do
      let root? ← evalRoot
      pushLocation (← descendAll levels root?)
    let l? ← popLocation
    let result ← noting h.place.line false (Value.applyBinary op (← loadOrNull l?) v.value)
    pushView (← writeTo h.place.line l? result.defined)

/-- A statement that is an expression. Bare literals have no effect. -/
def statementBody (expression : Term) (evalExpression : Option Intent → Run Unit) : Run Unit :=
  match expression with
  | .absent | .foreign => breach .emptyStatement
  | .array .. => pushValue .null
  | .literal h _ =>
    if h.kind = "nullkeyword" then within expression (evalExpression (some .read))
    else pushValue .null
  | .assign .. | .variable .. => evalExpression none
  | e => within e (evalExpression (some .read))

/-- Declares global names. -/
def globalNames : List Term → Run Unit
  | [] => pure ()
  | .variable _ name :: rest => do
    let name ← variableName name
    let _ ← inScope (Scoped.bindGlobal name)
    globalNames rest
  | _ :: _ => fatal .globalTarget

/-- Unsets names. -/
def unsetNames : List Term → Run Unit
  | [] => pure ()
  | .variable _ name :: rest => do
    let name ← variableName name
    inScope (Scoped.unset name none)
    unsetNames rest
  | _ :: _ => fatal .unsetTarget

/-- Lists of parts that are no lists cannot be gone through. -/
def listed (iterable : Bool) : Run Unit := if iterable then pure () else crash .wrongShape

/-- Only variables and subscripts can be written. -/
def writable (intent? : Option Intent) : Run Unit :=
  if intent? = some .write then fatal .temporaryWrite else pure ()

end Run

open Run in
mutual

/-- Evaluates a node for an intent. -/
def Term.eval : Term → Option Intent → Run Unit
  | .absent, _ => crash .notANode
  | .foreign, _ => crash .notANode
  | .statement _ e, _ => statementBody e fun i => Term.eval e i
  | .literal h d, intent? => do
    writable intent?
    pushValue (← literalValue h d)
  | .variable h name, intent? => variableBody h name intent?
  | .array _ iterable items, intent? => do
    writable intent?
    listed iterable
    pushValue (.array (← Term.evalItems items .empty))
  | .subscript h base key, intent? =>
    match intent? with
    | none => breach .subscriptWithoutIntent
    | some .write => do
      let levels ← Term.evalKeys base
      let key? ← keyOf h key (Term.eval key (some .read))
      let root? ← Term.evalRoot base
      pushLocation (← descendAll (levels ++ [levelOf h base key?]) root?)
    | some intent =>
      match key with
      | .absent => fatal .appendRead
      | key =>
        readSubscript h (intent == .isset) base key
          (Term.eval base (some (if intent == .isset then .isset else .read)))
          (Term.eval key (some .read))
  | .unary h op operand, intent? => do
    writable intent?
    unaryBody h op operand (Term.eval operand (some .read))
  | .binary h op left right, intent? => do
    writable intent?
    binaryBody h op left right (fun i => Term.eval left i) (Term.eval right (some .read))
  | .assign h op target value, intent? => do
    writable intent?
    if isPlain op then
      match value with
      | .foreign => crash .notANode
      | _ =>
        if value.byref then referenceBody target value (Term.eval value (some .write))
        else
          assignBody h target value (Term.eval target (some .write)) (Term.eval value (some .read))
    else
      match Operator.ofDatum compoundOp? op with
      | .wrongShape => crash .wrongShape
      | .unknown s => breach (.unknownAssignment s)
      | .known op =>
        compoundBody h op target value (Term.evalKeys target) (Term.evalRoot target)
          (Term.eval value (some .read))
  | .echo _ iterable operands, intent? => do
    writable intent?
    listed iterable
    Term.evalEcho operands
    pushValue .null
  | .global _ iterable targets, intent? => do
    writable intent?
    listed iterable
    globalNames targets
    pushValue .null
  | .unset _ iterable targets, intent? => do
    writable intent?
    listed iterable
    unsetNames targets
    pushValue .null
  | .program h _ _, intent? => do
    writable intent?
    breach (.unknownKind h.kind)
  | .entry h _ _, intent? => do
    writable intent?
    breach (.unknownKind h.kind)
  | .other h, intent? => do
    writable intent?
    breach (.unknownKind h.kind)

/-- Evaluates the keys of a target from its root outwards. -/
def Term.evalKeys : Term → Run (List Level)
  | .subscript h base key => do
    let levels ← Term.evalKeys base
    let key? ← keyOf h key (Term.eval key (some .read))
    return levels ++ [levelOf h base key?]
  | _ => pure []

/-- Evaluates the root of a target to be written. -/
def Term.evalRoot : Term → Run (Option Location)
  | .subscript _ base _ => Term.evalRoot base
  | .absent => breach .missingOperand
  | .foreign => crash .notANode
  | .variable h name => do
    located h.place (variableBody h name (some .write))
    popLocation
  | .statement h e => do
    located h.place (statementBody e fun i => Term.eval e i)
    popLocation
  | t => do
    within t (fatal .temporaryWrite)
    popLocation

/-- Evaluates the items of an array literal, each key before its value. -/
def Term.evalItems : List Term → Table Value → Run (Table Value)
  | [], t => pure t
  | .absent :: rest, t => Term.evalItems rest t
  | .foreign :: _, _ => crash .notANode
  | .entry h key value :: rest, t =>
    if h.byref then fatal .referenceInArray
    else do
      pushPending value (some .read)
      match key with
      | .absent =>
        resume (within value (Term.eval value (some .read)))
        let v ← popView
        Term.evalItems rest (t.append v.value.defined)
      | key =>
        pushPending key (some .read)
        resume (within key (Term.eval key (some .read)))
        let k ← popView
        let k ← noting h.place.line false k.value.toKey
        resume (within value (Term.eval value (some .read)))
        let v ← popView
        Term.evalItems rest (t.set k v.value.defined)
  | item :: rest, t =>
    if item.byref then fatal .referenceInArray
    else do
      pushPending item (some .read)
      resume (within item (Term.eval item (some .read)))
      let v ← popView
      Term.evalItems rest (t.append v.value.defined)

/-- Prints each operand before the next one is evaluated. -/
def Term.evalEcho : List Term → Run Unit
  | [] => pure ()
  | e :: rest => do
    pushPending e (some .read)
    resume (within e (Term.eval e (some .read)))
    let v ← popView
    let line := (e.head?.map (·.place.line)).getD .null
    print (← noting line false v.value.toText)
    Term.evalEcho rest

end

end PhpInterpreter
