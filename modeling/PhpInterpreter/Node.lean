import PhpInterpreter.Assoc
import PhpInterpreter.Json

/-!
Program trees as data: nodes with a kind, named fields in order, and a position. Trees from other
tools may hold any data in any field.
-/

namespace PhpInterpreter

mutual

/-- The data in a field. An object without a kind is kept as it was read. -/
inductive Datum
  | scalar (value : Scalar)
  | list (items : List Datum)
  | dict (members : List (String × Json))
  | node (n : Node)

inductive Node
  | mk (kind : String) (fields : List (String × Datum)) (line : Json) (column : Option Int)

end

namespace Datum

def null : Datum := scalar .null

instance : Inhabited Datum := ⟨null⟩

def string (s : String) : Datum := scalar (.string s)

def bool (b : Bool) : Datum := scalar (.bool b)

def isNull : Datum → Bool
  | scalar .null => true
  | _ => false

/-- Null, false, zero and everything empty but nodes are not truthy. -/
def truthy : Datum → Bool
  | scalar v => v.truthy
  | list items => !items.isEmpty
  | dict members => !members.isEmpty
  | node _ => true

end Datum

namespace Node

instance : Inhabited Node := ⟨mk "" [] .null none⟩

def kind : Node → String
  | mk k _ _ _ => k

def fields : Node → List (String × Datum)
  | mk _ fs _ _ => fs

def line : Node → Json
  | mk _ _ l _ => l

def column : Node → Option Int
  | mk _ _ _ c => c

/-- A field by name; a missing one is null. -/
def field (n : Node) (name : String) : Datum := (Assoc.get? name n.fields).getD .null

/-- The text that refuses a change in place. -/
def immutableText (n : Node) : String := "AST node '" ++ n.kind ++ "' is immutable"

/-- The node with another value in a field. -/
def replace (n : Node) (name : String) (value : Datum) : Node :=
  mk n.kind (Assoc.insert name value n.fields) n.line n.column

end Node

/-- The kind of a datum that is a node. -/
def Datum.kind? : Datum → Option String
  | .node n => some n.kind
  | _ => none

mutual

/-- JSON data as it is: no object becomes a node. -/
def Datum.plain : Json → Datum
  | .scalar v => .scalar v
  | .list items => .list (Datum.plainItems items)
  | .object members => .dict members

def Datum.plainItems : List Json → List Datum
  | [] => []
  | v :: rest => Datum.plain v :: Datum.plainItems rest

end

/-- What a node answers for a name. -/
inductive Property
  | datum (d : Datum)
  /-- All fields together. -/
  | fields (members : List (String × Datum))
  /-- Something a node can do, and no part of it. -/
  | operation

/-- The kind of a node that is answered. -/
def Property.kind? : Property → Option String
  | datum d => d.kind?
  | _ => none

/-- A node's own names hide fields of the same name. Names that begin with two underscores are
reserved. -/
def Node.property? (n : Node) (name : String) : Option Property :=
  match name with
  | "kind" => some (.datum (.string n.kind))
  | "line" => some (.datum (Datum.plain n.line))
  | "column" => some (.datum (n.column.elim .null fun c => .scalar (.number (.int c))))
  | "fields" => some (.fields n.fields)
  | "_fields" => some (.fields n.fields)
  | "replace" => some .operation
  | "pretty" => some .operation
  | _ => if Text.startsWith "__" name then none else some (.datum (n.field name))

mutual

/-- Equality of data: kinds and fields, whatever the positions and the order of fields. -/
def Datum.same : Datum → Datum → Bool
  | .scalar x, .scalar y => x.same y
  | .list xs, .list ys => Datum.sameItems xs ys
  | .dict xs, .dict ys => Json.same (.object xs) (.object ys)
  | .node a, .node b => Node.same a b
  | _, _ => false

def Node.same : Node → Node → Bool
  | .mk k fs _ _, b => k == b.kind && fs.length == b.fields.length && Node.sameFields fs b.fields

def Datum.sameItems : List Datum → List Datum → Bool
  | [], [] => true
  | x :: xs, y :: ys => Datum.same x y && Datum.sameItems xs ys
  | _, _ => false

/-- Whether every field on the left has an equal one of the same name on the right. -/
def Node.sameFields : List (String × Datum) → List (String × Datum) → Bool
  | [], _ => true
  | (k, v) :: rest, fields =>
    (match fields.find? (fun f => f.1 == k) with
      | some f => Datum.same v f.2
      | none => false) && Node.sameFields rest fields

end

/-- Whether two nodes have the same kind and the same names of fields: equal nodes do. -/
def Node.sameShape (a b : Node) : Bool :=
  let names (n : Node) := Assoc.keys n.fields
  a.kind == b.kind && (names a).length == (names b).length && (names a).all (names b).contains

end PhpInterpreter
