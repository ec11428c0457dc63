import PhpInterpreter.Source.Parser

/-!
Printing expressions: one space between tokens, and parentheses exactly around operands that bind
looser than their place requires.
-/

namespace PhpInterpreter.Source

/-- How tight subscripts bind. -/
def subscriptLevel : Nat := 14

/-- How tight an expression binds. -/
def Expr.tightness : Expr → Nat
  | .unary .. => unaryLevel
  | .binary _ op _ _ => level op
  | .assign .. | .reference .. => assignLevel
  | .subscript .. | .append .. => subscriptLevel
  | _ => subscriptLevel + 1

/-- The least tightness of a right operand. A power may have a sign before its exponent. -/
def rightLevel (op : BinaryOp) : Nat :=
  if op = .pow then unaryLevel else if rightAssociative op then level op else level op + 1

/-- Puts parentheses around the tokens of an expression that binds looser than needed. -/
def enclose (needed own : Nat) (tokens : List String) : List String :=
  if own < needed then "(" :: (tokens ++ [")"]) else tokens

mutual

/-- The tokens of an expression. -/
def Expr.tokens : Expr → List String
  | .variable _ name => ["$" ++ name]
  | .number _ text => [text]
  | .string _ raw => [raw]
  | .boolean _ b => [if b then "true" else "false"]
  | .null _ => ["null"]
  | .array _ short entries =>
    if short then "[" :: (Entry.tokensOf entries ++ ["]"])
    else "array" :: "(" :: (Entry.tokensOf entries ++ [")"])
  | .subscript _ base key =>
    enclose subscriptLevel base.tightness base.tokens ++ "[" :: (key.tokens ++ ["]"])
  | .append _ base => enclose subscriptLevel base.tightness base.tokens ++ ["[", "]"]
  | .unary _ op operand => op.symbol :: enclose unaryLevel operand.tightness operand.tokens
  | .binary _ op left right =>
    enclose (completes op) left.tightness left.tokens ++
      op.symbol :: enclose (rightLevel op) right.tightness right.tokens
  | .assign _ op target value =>
    enclose subscriptLevel target.tightness target.tokens ++
      op.symbol :: enclose assignLevel value.tightness value.tokens
  | .reference _ target source =>
    enclose subscriptLevel target.tightness target.tokens ++
      "=" :: "&" :: enclose subscriptLevel source.tightness source.tokens

def Entry.tokens : Entry → List String
  | .item _ value byRef =>
    if byRef then "&" :: enclose subscriptLevel value.tightness value.tokens else value.tokens
  | .keyed _ key value byRef =>
    key.tokens ++ "=>" ::
      if byRef then "&" :: enclose subscriptLevel value.tightness value.tokens else value.tokens

/-- The tokens of entries, with commas between them. -/
def Entry.tokensOf : List Entry → List String
  | [] => []
  | [e] => e.tokens
  | e :: rest => e.tokens ++ "," :: Entry.tokensOf rest

end

/-- The text of an expression. -/
def Expr.print (e : Expr) : String := Text.join " " e.tokens

end PhpInterpreter.Source
