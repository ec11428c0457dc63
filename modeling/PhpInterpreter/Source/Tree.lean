import PhpInterpreter.Node
import PhpInterpreter.Source.Reader
import PhpInterpreter.Text.StringLiteral

/-!
The tree of a source program. String literals are decoded on the way; the first in source order
that has no text is reported.
-/

namespace PhpInterpreter.Source

/-- Why a source text has no tree. -/
inductive SourceError
  | unreadable (e : ReadError)
  | literal (fault : StringLiteral.Fault) (pos : Position)
deriving DecidableEq, Inhabited

/-- A node at a position. -/
def nodeAt (pos : Position) (kind : String) (fields : List (String × Datum)) : Node :=
  .mk kind fields (.scalar (.number (.int pos.line))) (some pos.column)

/-- The text of a literal, by its delimiter. -/
def literalText (pos : Position) (raw : String) : Except SourceError String :=
  if raw.toList.head? == some '\x22' then
    match StringLiteral.decodeDouble raw with
    | .ok s => .ok s
    | .error fault => .error (.literal fault pos)
  else .ok (StringLiteral.decodeSingle raw)

def variableNode (pos : Position) (name : String) : Node :=
  nodeAt pos "variable" [("name", .string name), ("byref", .bool false)]

mutual

def Expr.toNode : Expr → Except SourceError Node
  | .variable pos name => .ok (variableNode pos name)
  | .number pos text => .ok (nodeAt pos "number" [("value", .string text)])
  | .string pos raw => do
    let text ← literalText pos raw
    return nodeAt pos "string" [("value", .string text),
      ("isDoubleQuote", .bool (raw.toList.head? == some '\x22')), ("raw", .string raw)]
  | .boolean pos b =>
    .ok (nodeAt pos "boolean"
      [("value", .bool b), ("raw", .string (if b then "true" else "false"))])
  | .null pos => .ok (nodeAt pos "nullkeyword" [("raw", .string "null")])
  | .array pos short entries => do
    let items ← Entry.toNodes entries
    return nodeAt pos "array" [("items", .list items), ("shortForm", .bool short)]
  | .subscript pos base key => do
    let b ← base.toNode
    let k ← key.toNode
    return nodeAt pos "offsetlookup"
      [("what", .node b), ("offset", .node k), ("byref", .bool false)]
  | .append pos base => do
    let b ← base.toNode
    return nodeAt pos "offsetlookup" [("what", .node b), ("offset", .null), ("byref", .bool false)]
  | .unary pos op operand => do
    let e ← operand.toNode
    return nodeAt pos "unary" [("type", .string op.symbol), ("what", .node e)]
  | .binary pos op left right => do
    let l ← left.toNode
    let r ← right.toNode
    return nodeAt pos "bin" [("type", .string op.symbol), ("left", .node l), ("right", .node r)]
  | .assign pos op target value => do
    let l ← target.toNode
    let r ← value.toNode
    return nodeAt pos "assign"
      [("left", .node l), ("right", .node r), ("operator", .string op.symbol)]
  | .reference pos target source => do
    let l ← target.toNode
    let r ← source.toNode
    return nodeAt pos "assign"
      [("left", .node l), ("right", .node (r.replace "byref" (.bool true))),
        ("operator", .string "=")]

def Entry.toNode : Entry → Except SourceError Node
  | .item pos value byRef => do
    let v ← value.toNode
    return nodeAt pos "entry" [("key", .null), ("value", .node v), ("byref", .bool byRef)]
  | .keyed pos key value byRef => do
    let k ← key.toNode
    let v ← value.toNode
    return nodeAt pos "entry" [("key", .node k), ("value", .node v), ("byref", .bool byRef)]

def Entry.toNodes : List Entry → Except SourceError (List Datum)
  | [] => .ok []
  | e :: rest => do
    let n ← e.toNode
    let ns ← Entry.toNodes rest
    return .node n :: ns

end

def Name.toDatum (n : Name) : Datum := .node (variableNode n.pos n.name)

def Stmt.toNode : Stmt → Except SourceError Node
  | .expression pos e => do
    let n ← e.toNode
    return nodeAt pos "expressionstatement" [("expression", .node n)]
  | .echo pos operands => do
    let ns ← operands.mapM Expr.toNode
    return nodeAt pos "echo" [("expressions", .list (ns.map .node)), ("shortForm", .bool false)]
  | .global pos names => .ok (nodeAt pos "global" [("items", .list (names.map Name.toDatum))])
  | .unset pos names => .ok (nodeAt pos "unset" [("variables", .list (names.map Name.toDatum))])

/-- The tree of a program; an empty one has no position. -/
def Program.toNode (p : Program) : Except SourceError Node := do
  let ns ← p.statements.mapM Stmt.toNode
  let fields := [("children", Datum.list (ns.map .node)), ("errors", Datum.list [])]
  match p.pos? with
  | some pos => return nodeAt pos "program" fields
  | none => return .mk "program" fields .null none

/-- The tree of a source text. -/
def tree (text : String) : Except SourceError Node :=
  match parse text with
  | .error e => .error (.unreadable e)
  | .ok p => p.toNode

namespace SourceError

/-- What is said about a text the language does not accept. -/
def message : SourceError → String
  | unreadable (.unexpected text _) => "syntax error, unexpected '" ++ text ++ "'"
  | unreadable (.unexpectedEnd _) => "syntax error, unexpected end of file"
  | literal _ _ => "String interpolation is not supported"

def pos : SourceError → Position
  | unreadable (.unexpected _ p) => p
  | unreadable (.unexpectedEnd p) => p
  | literal _ p => p

/-- The message with its line. -/
def text (e : SourceError) : String := e.message ++ " on line " ++ decimalText e.pos.line

/-- Code point escapes without a code point are not errors of the language. -/
def isParseError : SourceError → Bool
  | unreadable _ => true
  | literal .interpolation _ => true
  | literal _ _ => false

end SourceError

end PhpInterpreter.Source
