import PhpInterpreter.Operator
import PhpInterpreter.Source.Token

/-!
Source syntax: expressions, statements and programs, each with the position of its first token.
-/

namespace PhpInterpreter.Source

/-- Plain assignment, or one combined with an operator. -/
inductive AssignOp
  | plain
  | compound (op : BinaryOp)
deriving DecidableEq, Inhabited

def AssignOp.symbol : AssignOp → String
  | plain => "="
  | compound op => op.symbol ++ "="

mutual

inductive Expr
  | variable (pos : Position) (name : String)
  | number (pos : Position) (text : String)
  /-- A quoted literal, by its text. -/
  | string (pos : Position) (raw : String)
  | boolean (pos : Position) (value : Bool)
  | null (pos : Position)
  /-- An array literal, in brackets or after `array`. -/
  | array (pos : Position) (short : Bool) (entries : List Entry)
  | subscript (pos : Position) (base key : Expr)
  /-- A subscript without a key, which appends. -/
  | append (pos : Position) (base : Expr)
  | unary (pos : Position) (op : UnaryOp) (operand : Expr)
  | binary (pos : Position) (op : BinaryOp) (left right : Expr)
  | assign (pos : Position) (op : AssignOp) (target value : Expr)
  | reference (pos : Position) (target source : Expr)

/-- An entry of an array literal. -/
inductive Entry
  | item (pos : Position) (value : Expr) (byRef : Bool)
  | keyed (pos : Position) (key value : Expr) (byRef : Bool)

end

namespace Expr

def pos : Expr → Position
  | .variable p _ | number p _ | string p _ | boolean p _ | null p | array p _ _ | subscript p _ _
  | append p _ | unary p _ _ | binary p _ _ _ | assign p _ _ _ | reference p _ _ => p

instance : Inhabited Expr := ⟨null .start⟩

end Expr

instance : Inhabited Entry := ⟨.item .start default false⟩

/-- A variable named in a declaration. -/
structure Name where
  pos : Position
  name : String
deriving DecidableEq, Inhabited

inductive Stmt
  | expression (pos : Position) (e : Expr)
  | echo (pos : Position) (operands : List Expr)
  | global (pos : Position) (names : List Name)
  | unset (pos : Position) (names : List Name)
deriving Inhabited

/-- Statements, and the position of the first token if there is one. -/
structure Program where
  pos? : Option Position
  statements : List Stmt
deriving Inhabited

end PhpInterpreter.Source
