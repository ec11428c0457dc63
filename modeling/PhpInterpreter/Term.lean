import PhpInterpreter.Fault
import PhpInterpreter.Node

/-!
Trees as they are evaluated. A term has the parts its kind is evaluated with; parts may be absent,
or be foreign data where a node is needed, and lists of parts may be no lists.
-/

namespace PhpInterpreter

/-- What every node has: its kind, its place, and whether it is marked as a reference. -/
structure Head where
  kind : String
  place : Place
  byref : Bool
deriving Inhabited

inductive Term
  | absent
  | foreign
  | program (head : Head) (iterable : Bool) (statements : List Term)
  | statement (head : Head) (expression : Term)
  | echo (head : Head) (iterable : Bool) (operands : List Term)
  | global (head : Head) (iterable : Bool) (targets : List Term)
  | unset (head : Head) (iterable : Bool) (targets : List Term)
  | literal (head : Head) (value : Datum)
  | variable (head : Head) (name : Datum)
  | array (head : Head) (iterable : Bool) (items : List Term)
  | entry (head : Head) (key value : Term)
  | subscript (head : Head) (base key : Term)
  | unary (head : Head) (operator : Datum) (operand : Term)
  | binary (head : Head) (operator : Datum) (left right : Term)
  | assign (head : Head) (operator : Datum) (target value : Term)
  | other (head : Head)
deriving Inhabited

namespace Term

/-- The head of a node. -/
def head? : Term → Option Head
  | absent | foreign => none
  | program h _ _ | statement h _ | echo h _ _ | global h _ _ | unset h _ _ | literal h _
  | .variable h _ | array h _ _ | entry h _ _ | subscript h _ _ | unary h _ _ | binary h _ _ _
  | assign h _ _ _ | other h => some h

def isAbsent : Term → Bool
  | absent => true
  | _ => false

/-- The kind of a node. -/
def kind? (t : Term) : Option String := t.head?.map (·.kind)

/-- Whether a node is marked as a reference. -/
def byref (t : Term) : Bool := t.head?.any (·.byref)

/-- A field as data, as a term, and as a list of terms. -/
structure Reading where
  raw : Datum
  term : Term
  iterable : Bool
  items : List Term
deriving Inhabited

/-- A missing field reads as null. -/
def Reading.missing : Reading := ⟨.null, .absent, true, []⟩

/-- The term of a node from the readings of its fields. -/
def build (head : Head) (fields : List (String × Reading)) : Term :=
  let read (name : String) : Reading := (Assoc.get? name fields).getD .missing
  match head.kind with
  | "program" => program head (read "children").iterable (read "children").items
  | "expressionstatement" => statement head (read "expression").term
  | "echo" =>
    let r := if (read "expressions").raw.isNull then read "arguments" else read "expressions"
    echo head r.iterable r.items
  | "global" => global head (read "items").iterable (read "items").items
  | "unset" => unset head (read "variables").iterable (read "variables").items
  | "number" | "string" | "boolean" | "nullkeyword" => literal head (read "value").raw
  | "variable" => .variable head (read "name").raw
  | "array" => array head (read "items").iterable (read "items").items
  | "entry" => entry head (read "key").term (read "value").term
  | "offsetlookup" => subscript head (read "what").term (read "offset").term
  | "unary" => unary head (read "type").raw (read "what").term
  | "bin" => binary head (read "type").raw (read "left").term (read "right").term
  | "assign" => assign head (read "operator").raw (read "left").term (read "right").term
  | _ => other head

/-- The mark of a reference among the fields. -/
def marked (fields : List (String × Datum)) : Bool :=
  ((Assoc.get? "byref" fields).getD .null).truthy

end Term

mutual

/-- The term of a node. -/
def Node.toTerm : Node → Term
  | .mk kind fields line column =>
    Term.build ⟨kind, ⟨line, column⟩, Term.marked fields⟩ (Node.readings fields)

/-- The term of a datum: null is absent, other data than nodes is foreign. -/
def Datum.toTerm : Datum → Term
  | .scalar .null => .absent
  | .scalar _ => .foreign
  | .list _ => .foreign
  | .dict _ => .foreign
  | .node n => Node.toTerm n

def Datum.toTerms : List Datum → List Term
  | [] => []
  | d :: rest => Datum.toTerm d :: Datum.toTerms rest

/-- The readings of fields. What is not truthy lists nothing; texts and objects list foreign
parts. -/
def Node.readings : List (String × Datum) → List (String × Term.Reading)
  | [] => []
  | (name, .list items) :: rest =>
    (name, ⟨.list items, .foreign, true, Datum.toTerms items⟩) :: Node.readings rest
  | (name, .node n) :: rest => (name, ⟨.node n, Node.toTerm n, false, []⟩) :: Node.readings rest
  | (name, .dict members) :: rest =>
    (name, ⟨.dict members, .foreign, true, members.map fun _ => .foreign⟩) :: Node.readings rest
  | (name, .scalar (.string s)) :: rest =>
    (name, ⟨.scalar (.string s), .foreign, true, s.toList.map fun _ => .foreign⟩) ::
      Node.readings rest
  | (name, .scalar .null) :: rest => (name, Term.Reading.missing) :: Node.readings rest
  | (name, .scalar v) :: rest => (name, ⟨.scalar v, .foreign, !v.truthy, []⟩) :: Node.readings rest

end

end PhpInterpreter
