import PhpInterpreter.Json.Reader
import PhpInterpreter.Node

/-!
Trees from JSON: objects with a `kind` are nodes, at the position under `loc.start`.
-/

namespace PhpInterpreter

namespace Node

/-- Members that are not fields. -/
def notFields : List String := ["kind", "loc", "leadingComments", "trailingComments", "attrGroups"]

/-- The name a member has as a field. -/
def fieldName (name : String) : String := if name = "byRef" then "byref" else name

/-- The value under a name; null if there is none. -/
def member (members : List (String × Json)) (name : String) : Json :=
  (Assoc.get? name members).getD .null

/-- Line and column under `loc.start`; columns are counted from zero there, from one in nodes. -/
def position (members : List (String × Json)) : Json × Option Int :=
  match member members "loc" with
  | .object loc =>
    match member loc "start" with
    | .object start =>
      let column := match member start "column" with
        | .scalar (.number (.int n)) => some (n + 1)
        | .scalar (.bool b) => some (if b then 2 else 1)
        | _ => none
      (member start "line", column)
    | _ => (.null, none)
  | _ => (.null, none)

/-- Some tools write `false` for an absent subscript or key. -/
def isAbsent (name : String) : Json → Bool
  | .scalar (.bool false) => name == "offset" || name == "key"
  | _ => false

end Node

mutual

/-- The tree of a JSON value. -/
def Datum.ofJson : Json → Datum
  | .scalar v => .scalar v
  | .list items => .list (Datum.ofItems items)
  | .object members =>
    match Assoc.get? "kind" members with
    | none => .dict members
    | some kind =>
      let (line, column) := Node.position members
      .node (.mk kind.shown (Node.ofMembers members []) line column)

def Datum.ofItems : List Json → List Datum
  | [] => []
  | v :: rest => Datum.ofJson v :: Datum.ofItems rest

/-- The fields of an object's members, after those already there. -/
def Node.ofMembers : List (String × Json) → List (String × Datum) → List (String × Datum)
  | [], done => done
  | (name, v) :: rest, done =>
    if Node.notFields.contains name then Node.ofMembers rest done
    else
      let value := if Node.isAbsent name v then Datum.null else Datum.ofJson v
      Node.ofMembers rest (Assoc.insert (Node.fieldName name) value done)

end

/-- Why a text is no tree. -/
inductive Node.LoadFault
  | unreadable (fault : Json.ReadFault)
  | noRoot
deriving DecidableEq, Inhabited

/-- The message about `text`. -/
def Node.LoadFault.message (text : String) : Node.LoadFault → String
  | unreadable fault => fault.message text
  | noRoot => "JSON AST root must be an object with a 'kind' field"

/-- Reads a tree from JSON text. -/
def Node.load (text : String) : Except Node.LoadFault Node :=
  match Json.parse text with
  | .error fault => .error (.unreadable fault)
  | .ok json =>
    match Datum.ofJson json with
    | .node n => .ok n
    | _ => .error .noRoot

end PhpInterpreter
