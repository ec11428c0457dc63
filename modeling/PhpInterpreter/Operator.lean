import PhpInterpreter.Value.Compare

/-!
Operators and their results on values.
-/

namespace PhpInterpreter

inductive BinaryOp
  | add | sub | mul | div | mod | pow
  | concat
  | equal | notEqual | differs
  | identical | notIdentical
  | less | lessOrEqual | greater | greaterOrEqual | spaceship
  | and | or
  | lowAnd | lowOr | lowXor
  | coalesce
deriving DecidableEq, Inhabited

namespace BinaryOp

def symbol : BinaryOp → String
  | add => "+"
  | sub => "-"
  | mul => "*"
  | div => "/"
  | mod => "%"
  | pow => "**"
  | concat => "."
  | equal => "=="
  | notEqual => "!="
  | differs => "<>"
  | identical => "==="
  | notIdentical => "!=="
  | less => "<"
  | lessOrEqual => "<="
  | greater => ">"
  | greaterOrEqual => ">="
  | spaceship => "<=>"
  | and => "&&"
  | or => "||"
  | lowAnd => "and"
  | lowOr => "or"
  | lowXor => "xor"
  | coalesce => "??"

def all : List BinaryOp :=
  [add, sub, mul, div, mod, pow, concat, equal, notEqual, differs, identical, notIdentical, less,
    lessOrEqual, greater, greaterOrEqual, spaceship, and, or, lowAnd, lowOr, lowXor, coalesce]

def ofSymbol? (s : String) : Option BinaryOp := all.find? (·.symbol == s)

theorem ofSymbol?_symbol (op : BinaryOp) : ofSymbol? op.symbol = some op := by
  cases op <;> decide

end BinaryOp

inductive UnaryOp
  | plus
  | minus
  | not
deriving DecidableEq, Inhabited

namespace UnaryOp

def symbol : UnaryOp → String
  | plus => "+"
  | minus => "-"
  | not => "!"

def ofSymbol? (s : String) : Option UnaryOp := [plus, minus, not].find? (·.symbol == s)

end UnaryOp

namespace Value

/-- Arrays and objects take no part in arithmetic. -/
def isCompound : Value → Bool
  | array _ | object .. => true
  | _ => false

/-- A number operation that may be past the doubles. -/
def inRange : Option Number → Noting Value
  | some n => pure (number n)
  | none => Noting.crash .outOfRange

/-- Arithmetic on two numbers. -/
def compute (op : BinaryOp) (x y : Number) : Noting Value :=
  match op with
  | .add => inRange ((x.add y).map Number.fit)
  | .sub => inRange ((x.sub y).map Number.fit)
  | .mul => inRange ((x.mul y).map Number.fit)
  | .div => if y.isZero then Noting.fatal .divisionByZero else inRange (x.div y)
  | .mod =>
    if y.truncate = 0 then Noting.fatal .moduloByZero else pure (int (x.mod y))
  | _ => pure (number (x.power y))

/-- The union of two arrays; what is taken from the right one is defined. -/
def union (t u : Table Value) : Table Value :=
  t.union { u with entries := u.entries.map fun (k, v) => (k, v.defined) }

/-- Arithmetic on two values: the union of two arrays, else on numbers. -/
def arithmetic (op : BinaryOp) (a b : Value) : Noting Value := do
  if a.isCompound || b.isCompound then
    match op, a, b with
    | .add, array t, array u => return array (union t u)
    | _, _, _ => throw (Fault.ofCause (.operandTypes a.typeName op.symbol b.typeName))
  else
    let x ← a.toNumber
    let y ← b.toNumber
    compute op x y

/-- A comparison as a boolean. -/
def test (p : Int → Bool) (c : Except Crash Int) : Noting Value := do
  return bool (p (← lift c))

/-- The result of a binary operator on two defined values. -/
def combine (op : BinaryOp) (a b : Value) : Noting Value :=
  match op with
  | .concat => do
    let s ← a.toText
    let t ← b.toText
    return string (s ++ t)
  | .equal => test (· == 0) (compare a b)
  | .notEqual | .differs => test (· != 0) (compare a b)
  | .identical => do return bool (← lift (Value.identical a b))
  | .notIdentical => do return bool !(← lift (Value.identical a b))
  | .less => test (decide <| · < 0) (compare a b)
  | .lessOrEqual => test (decide <| · ≤ 0) (compare a b)
  | .greater => test (decide <| · < 0) (compare b a)
  | .greaterOrEqual => test (decide <| · ≤ 0) (compare b a)
  | .spaceship => do return int (← lift (compare a b))
  | .and | .lowAnd => pure (bool (a.toBool && b.toBool))
  | .or | .lowOr => pure (bool (a.toBool || b.toBool))
  | .lowXor => pure (bool (a.toBool != b.toBool))
  | .coalesce => pure (if a.isNull then b else a)
  | _ => arithmetic op a b

/-- The result of a binary operator. -/
def applyBinary (op : BinaryOp) (a b : Value) : Noting Value := combine op a.defined b.defined

/-- The result of a unary operator. -/
def applyUnary (op : UnaryOp) (a : Value) : Noting Value :=
  let v := a.defined
  match op with
  | .not => pure (bool !v.toBool)
  | _ => do
    if v.isCompound then throw (Fault.ofCause (.operandTypes v.typeName "*" "int"))
    else
      let n ← v.toNumber
      return number (if op = .minus then n.neg else n).fit

/-- What the left operand alone decides, if it does. -/
def shortCircuit (op : BinaryOp) (a : Value) : Option Value :=
  match op with
  | .and | .lowAnd => if a.toBool then none else some (bool false)
  | .or | .lowOr => if a.toBool then some (bool true) else none
  | .coalesce => if a.isNull then none else some a
  | _ => none

/-- The character of a string under a key: string keys count as zero, negative keys count from
the end. Undefined past the ends. -/
def charAt (quiet : Bool) (s : String) (key : Key) : Noting Value := do
  let k ← match key with
    | .int n => pure n
    | .str t => do
      Noting.remark (.illegalStringOffset t)
      pure 0
  let cs := s.toList
  let position := if k < 0 then k + cs.length else k
  match (if 0 ≤ position then cs[position.toNat]? else none) with
  | some c => return string c.toString
  | none =>
    Noting.mention quiet ((integerText k).map .missingCharacter)
    return undefined

end Value

/-- The remark on a key that is not there. -/
def Remark.missing : Key → Except Crash Remark
  | .int n => (integerText n).map missingOffset
  | .str s => .ok (missingIndex s)

end PhpInterpreter
