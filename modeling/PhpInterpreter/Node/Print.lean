import PhpInterpreter.Node

/-!
Texts of trees: the display form on one line, and the indented form.
-/

namespace PhpInterpreter

mutual

/-- The display form of a datum. -/
def Datum.display : Datum → String
  | .scalar v => v.display
  | .list items => "[" ++ Text.join ", " (Datum.displayItems items) ++ "]"
  | .dict members => Json.display (.object members)
  | .node n => Node.display n

def Node.display : Node → String
  | .mk kind fields _ _ =>
    "Node(" ++ Text.join ", " (Text.display kind :: Node.displayFields fields) ++ ")"

def Datum.displayItems : List Datum → List String
  | [] => []
  | v :: rest => Datum.display v :: Datum.displayItems rest

def Node.displayFields : List (String × Datum) → List String
  | [] => []
  | (name, v) :: rest => (name ++ "=" ++ Datum.display v) :: Node.displayFields rest

end

/-- The display form, a text as it is. -/
def Datum.shown : Datum → String
  | .scalar v => v.shown
  | v => v.display

mutual

/-- The indented form of a datum: nodes and lists over several lines. -/
def Datum.pretty (indent : String) : Datum → String → Nat → String
  | .node n, label, level => Node.prettyAt indent n label level
  | .list items, label, level =>
    Text.repeated indent level ++ label ++ "[\n" ++ Datum.prettyItems indent items (level + 1) ++
      Text.repeated indent level ++ "]\n"
  | .scalar v, label, level => Text.repeated indent level ++ label ++ v.display ++ "\n"
  | .dict members, label, level =>
    Text.repeated indent level ++ label ++ Json.display (.object members) ++ "\n"

def Node.prettyAt (indent : String) : Node → String → Nat → String
  | .mk kind fields _ _, label, level =>
    Text.repeated indent level ++ label ++ kind ++ "\n" ++
      Node.prettyFields indent fields (level + 1)

def Datum.prettyItems (indent : String) : List Datum → Nat → String
  | [], _ => ""
  | v :: rest, level => Datum.pretty indent v "" level ++ Datum.prettyItems indent rest level

def Node.prettyFields (indent : String) : List (String × Datum) → Nat → String
  | [], _ => ""
  | (name, v) :: rest, level =>
    Datum.pretty indent v (name ++ ": ") level ++ Node.prettyFields indent rest level

end

/-- The indented form of a tree. -/
def Node.pretty (n : Node) (indent : String) : String := n.prettyAt indent "" 0

end PhpInterpreter
