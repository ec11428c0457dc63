import PhpInterpreter.Fault

/-!
Scopes and slots. A name is bound to a slot, and the slot's cell, in the scope that owns it, holds
the value: names bound to one slot see each other's writes. A released scope stays in the table
as long as one of its cells has a name somewhere.
-/

namespace PhpInterpreter

inductive ScopeKind
  | global
  | function
  | closure
  | classBody
  | namespaceBody
deriving DecidableEq, Inhabited

namespace ScopeKind

def label : ScopeKind → String
  | global => "global"
  | function => "function"
  | closure => "closure"
  | classBody => "class"
  | namespaceBody => "namespace"

/-- The kinds of scopes that can be created, in the order of reports. -/
def nested : List ScopeKind := [function, closure, classBody, namespaceBody]

def ofLabel? (s : String) : Option ScopeKind := nested.find? (·.label == s)

end ScopeKind

structure Scope where
  name : String
  kind : ScopeKind
  outer? : Option Int
  /-- Names and their slots, in binding order. -/
  names : List (String × Int)
  /-- Slots and their values, for the slots the scope owns. -/
  cells : List (Int × Value)
  /-- Handles of the objects created here. -/
  heap : List Int
  /-- Scopes created inside, by kind. -/
  enclosed : List (ScopeKind × Int)
  released : Bool
deriving Inhabited

namespace Scope

def new (name : String) (kind : ScopeKind) (outer? : Option Int) : Scope :=
  ⟨name, kind, outer?, [], [], [], [], false⟩

/-- Classes have static members. -/
def hasStatics (s : Scope) : Bool := s.kind == .classBody

/-- The scopes of a kind created inside, in order. -/
def enclosedOf (s : Scope) (kind : ScopeKind) : List Int :=
  (s.enclosed.filter (·.1 == kind)).map (·.2)

def binds (s : Scope) (slot : Int) : Bool := s.names.any (·.2 == slot)

end Scope

structure Environment where
  /-- Scopes by index, in creation order. -/
  scopes : List (Int × Scope)
  current : Int
  /-- The scopes to go back to, innermost first. -/
  entered : List Int
  nextSlot : Int
  nextScope : Int
  nextHandle : Int
  /-- The owning scope of every slot. -/
  owners : List (Int × Int)
deriving Inhabited

/-- An operation on the environment; what it did before it fails stays done. -/
abbrev Scoped (α : Type) : Type := ExceptT Breach (StateM Environment) α

namespace Environment

/-- The index of the global scope. -/
def globalIndex : Int := 0

def init : Environment :=
  ⟨[(globalIndex, Scope.new "global" .global none)], globalIndex, [], 1, 1, 1, []⟩

def scope? (e : Environment) (index : Int) : Option Scope := Assoc.get? index e.scopes

def modifyScope (index : Int) (f : Scope → Scope) (e : Environment) : Environment :=
  { e with scopes := Assoc.modify index f e.scopes }

/-- Whether a name of some scope is bound to the slot. -/
def isBound (e : Environment) (slot : Int) : Bool := e.scopes.any (·.2.binds slot)

/-- Drops the cell of a slot owned by the scope `index`. -/
def dropCell (index slot : Int) (e : Environment) : Environment :=
  { e.modifyScope index (fun s => { s with cells := Assoc.erase slot s.cells }) with
    owners := Assoc.erase slot e.owners }

/-- Drops the scope `index` from the table and from its outer scope's list. -/
def dropScope (index : Int) (s : Scope) (e : Environment) : Environment :=
  let e := { e with scopes := Assoc.erase index e.scopes }
  match s.outer? with
  | some outer =>
    e.modifyScope outer fun o => { o with enclosed := o.enclosed.erase (s.kind, index) }
  | none => e

/-- Drops the cells of a scope that no name is bound to, and the scope if none is left. -/
def sweepScope (e : Environment) (index : Int) : Environment :=
  match e.scope? index with
  | none => e
  | some s =>
    let unused := (Assoc.keys s.cells).filter fun slot => !e.isBound slot
    let e := unused.foldl (fun e slot => e.dropCell index slot) e
    match e.scope? index with
    | some ⟨name, kind, outer?, names, [], heap, enclosed, released⟩ =>
      e.dropScope index ⟨name, kind, outer?, names, [], heap, enclosed, released⟩
    | _ => e

/-- Sweeps all released scopes. -/
def sweep (e : Environment) : Environment :=
  ((e.scopes.filter (·.2.released)).map (·.1)).foldl sweepScope e

/-- Gives the scope `index` a new cell. -/
def allocate (index : Int) (value : Value) (e : Environment) : Int × Environment :=
  let slot := e.nextSlot
  let e := e.modifyScope index fun s => { s with cells := Assoc.insert slot value s.cells }
  (slot, { e with nextSlot := slot + 1, owners := Assoc.insert slot index e.owners })

/-- Binds a name of the scope `index` to a slot. -/
def setName (index : Int) (name : String) (slot : Int) (e : Environment) : Environment :=
  e.modifyScope index fun s => { s with names := Assoc.insert name slot s.names }

/-- The value at a location: undefined where nothing is. -/
def load (e : Environment) (l : Location) : Value :=
  match (e.scope? l.scope).bind fun s => Assoc.get? l.slot s.cells with
  | none => .undefined
  | some v =>
    match l.char?, v.descend l.path with
    | none, w => w
    | some n, .string s =>
      match (if 0 ≤ n then s.toList[n.toNat]? else none) with
      | some c => .string c.toString
      | none => .undefined
    | some _, _ => .undefined

end Environment

namespace Scoped

def fail {α : Type} (b : Breach) : Scoped α := throw b

/-- The scope at an index. -/
def get (index : Int) : Scoped Scope := do
  match (← getThe Environment).scope? index with
  | some s => return s
  | none => fail (.unknownScope index)

/-- The given scope, or the current one. -/
def orCurrent (index? : Option Int) : Scoped Int := do
  return index?.getD (← getThe Environment).current

/-- A new scope inside another one, or inside the current one. -/
def create (name kind : String) (outer? : Option Int) : Scoped Int := do
  match ScopeKind.ofLabel? kind with
  | none => fail (.scopeKind kind)
  | some kind =>
    let outer ← orCurrent outer?
    let _ ← get outer
    modifyGet fun e =>
      let index := e.nextScope
      let e := { e with
        scopes := Assoc.insert index (Scope.new name kind (some outer)) e.scopes
        nextScope := index + 1 }
      (index, e.modifyScope outer fun o => { o with enclosed := o.enclosed ++ [(kind, index)] })

/-- Makes a scope the current one. -/
def enter (index : Int) : Scoped Unit := do
  let _ ← get index
  modify fun e => { e with entered := e.current :: e.entered, current := index }

/-- Goes back to the scope that was current before; the result is the scope left. -/
def leave : Scoped Int := do
  let e ← getThe Environment
  match e.entered with
  | [] => fail .leaveGlobal
  | back :: rest =>
    set { e with current := back, entered := rest }
    return e.current

/-- Ends the life of a scope; cells that have names elsewhere survive. -/
def release (index : Int) : Scoped Unit := do
  let e ← getThe Environment
  if index = Environment.globalIndex then fail .releaseGlobal
  else if index = e.current || e.entered.contains index then fail (.stillActive index)
  else
    let _ ← get index
    modify fun e =>
      (e.modifyScope index fun s => { s with names := [], released := true }).sweep

/-- A new scope made current. -/
def openScope (name kind : String) : Scoped Int := do
  let index ← create name kind none
  enter index
  return index

/-- Leaves the current scope and releases the scope `index`. -/
def closeScope (index : Int) : Scoped Unit := do
  let _ ← leave
  release index

/-- The scope that owns a slot. -/
def owner (slot : Int) : Scoped Int := do
  match Assoc.get? slot (← getThe Environment).owners with
  | some index => return index
  | none => fail (.noOwner slot)

/-- The location of a name, if it is bound. -/
def lookup (name : String) (index? : Option Int) : Scoped (Option Location) := do
  let s ← get (← orCurrent index?)
  match Assoc.get? name s.names with
  | none => return none
  | some slot => return some ⟨← owner slot, slot, [], none⟩

/-- The location of a name; an unbound name is bound to a new cell with null. -/
def declare (name : String) (index? : Option Int) : Scoped Location := do
  let index ← orCurrent index?
  match ← lookup name (some index) with
  | some l => return l
  | none =>
    modifyGet fun e =>
      let (slot, e) := e.allocate index .null
      (⟨index, slot, [], none⟩, e.setName index name slot)

/-- Unbinds a name; the cell goes with its last name. -/
def unset (name : String) (index? : Option Int) : Scoped Unit := do
  let index ← orCurrent index?
  let s ← get index
  match Assoc.get? name s.names with
  | none => return ()
  | some slot =>
    modify fun e =>
      let e := e.modifyScope index fun s => { s with names := Assoc.erase name s.names }
      if e.isBound slot then e
      else
        match Assoc.get? slot e.owners with
        | some o => (e.dropCell o slot).sweep
        | none => e.sweep

/-- Makes a name another one for the slot of a location. -/
def bind (name : String) (l : Location) (index? : Option Int) : Scoped Unit := do
  if !l.path.isEmpty || l.char?.isSome then fail .partialAlias
  else
    let index ← orCurrent index?
    let s ← get index
    if Assoc.get? name s.names = some l.slot then return ()
    else
      unset name (some index)
      let _ ← get index
      modify (·.setName index name l.slot)

/-- Makes a name of the current scope another one for the global variable. -/
def bindGlobal (name : String) : Scoped Location := do
  let l ← declare name (some Environment.globalIndex)
  if (← getThe Environment).current ≠ Environment.globalIndex then bind name l none
  return l

/-- Stores a value in a slot or an array element. -/
def store (l : Location) (value : Value) : Scoped Unit := do
  if l.char?.isSome then fail .characterStore
  else
    let s ← get l.scope
    match Assoc.get? l.slot s.cells with
    | none => fail (.notStored l.slot l.scope)
    | some old =>
      match old.setAt? l.path value with
      | none => fail .noContainer
      | some new =>
        modify fun e => e.modifyScope l.scope fun s =>
          { s with cells := Assoc.modify l.slot (fun _ => new) s.cells }

/-- A new object; its payload belongs to the given or the current scope. -/
def newObject (className : String) (index? : Option Int) : Scoped Value := do
  let index ← orCurrent index?
  let handle ← modifyGet fun e => (e.nextHandle, { e with nextHandle := e.nextHandle + 1 })
  let _ ← get index
  modify fun e => e.modifyScope index fun s => { s with heap := s.heap ++ [handle] }
  return .object handle className

/-- The values of names, in order; what is undefined is left out. -/
def valuesOf : List (String × Int) → Scoped (List (String × Value))
  | [] => return []
  | (name, slot) :: rest => do
    let v := (← getThe Environment).load ⟨← owner slot, slot, [], none⟩
    let vs ← valuesOf rest
    match v with
    | .undefined => return vs
    | v => return (name, v) :: vs

/-- The variables of a scope in binding order. -/
def bindings (index? : Option Int) : Scoped (List (String × Value)) := do
  let s ← get (← orCurrent index?)
  valuesOf s.names

end Scoped

end PhpInterpreter
