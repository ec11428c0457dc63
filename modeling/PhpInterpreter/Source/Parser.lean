import PhpInterpreter.Source.Expr

/-!
A parser that takes one token at a time. Between tokens it knows which terminals can follow, so
the scanner need only look for those. Operators wait in frames until a token comes that does not
bind tighter.
-/

namespace PhpInterpreter.Source

/-- How tight operators bind, from `or` to `**`. -/
def level : BinaryOp → Nat
  | .lowOr => 0
  | .lowXor => 1
  | .lowAnd => 2
  | .coalesce => 4
  | .or => 5
  | .and => 6
  | .equal | .notEqual | .differs | .identical | .notIdentical | .spaceship => 7
  | .less | .lessOrEqual | .greater | .greaterOrEqual => 8
  | .concat => 9
  | .add | .sub => 10
  | .mul | .div | .mod => 11
  | .pow => 13

/-- How tight assignments bind. -/
def assignLevel : Nat := 3

/-- How tight unary operators bind. -/
def unaryLevel : Nat := 12

/-- Whether the right operand may hold the same operator again without parentheses. -/
def rightAssociative : BinaryOp → Bool
  | .coalesce | .pow => true
  | _ => false

/-- Frames of this level and above are complete when the operator follows. -/
def completes (op : BinaryOp) : Nat := if rightAssociative op then level op + 1 else level op

/-- An expression, and where its text starts, parentheses included. -/
structure Operand where
  expr : Expr
  start : Position
deriving Inhabited

/-- What has been read of an entry before its value. -/
inductive EntryHead
  | fresh
  | ref (pos : Position)
  | key (key : Operand)
  | keyRef (key : Operand)
deriving Inhabited

/-- What waits for an operand. -/
inductive Frame
  | group (pos : Position)
  | subscript (base : Operand)
  | entries (pos : Position) (short : Bool) (done : List Entry) (head : EntryHead)
  | unary (pos : Position) (op : UnaryOp)
  | binary (left : Operand) (op : BinaryOp)
  | assign (target : Operand) (op : AssignOp)
  | reference (target : Operand)
deriving Inhabited

/-- The statement an expression is part of; entries and operands read so far are in reverse. -/
inductive Context
  | expression
  | echo (pos : Position) (done : List Expr)
deriving Inhabited

/-- What the parser waits for. -/
inductive Phase
  | start
  | statement
  | closed
  | operand (context : Context) (frames : List Frame)
  | operator (context : Context) (frames : List Frame) (left : Operand)
  | arrayParen (context : Context) (frames : List Frame) (pos : Position)
  | globalName (pos : Position) (done : List Name)
  | globalNext (pos : Position) (done : List Name)
  | unsetParen (pos : Position)
  | unsetName (pos : Position)
  | unsetNext (pos : Position) (done : List Name)
  | unsetMore (pos : Position) (done : List Name)
  | unsetEnd (pos : Position) (done : List Name)
deriving Inhabited

/-- The parser between two tokens: the first position, the statements in reverse, the phase. -/
structure Parser where
  pos? : Option Position
  done : List Stmt
  phase : Phase
deriving Inhabited

namespace Parser

def init : Parser := ⟨none, [], .start⟩

/-- Terminals that start a primary expression. -/
def startsPrimary : Terminal → Bool
  | .number | .variable | .doubleQuoted | .singleQuoted | .array | .falseWord | .nullWord
  | .trueWord | .openParen | .openBracket => true
  | _ => false

/-- Terminals that start an expression. -/
def startsOperand : Terminal → Bool
  | .sumOp | .bang => true
  | t => startsPrimary t

def startsStatement : Terminal → Bool
  | .semicolon | .global | .echo | .unset => true
  | t => startsOperand t

/-- Terminals that can follow an operand somewhere. -/
def followsOperand : Terminal → Bool
  | .assignOp | .equalityOp | .lowAnd | .lowXor | .comparisonOp | .andOp | .coalesce | .lowOr
  | .orOp | .powerOp | .arrow | .productOp | .sumOp | .comma | .dot | .equals | .openBracket
  | .closeParen | .closeBracket | .semicolon => true
  | _ => false

/-- Terminals that can follow where an operand is due. -/
def operandAccepts (frames : List Frame) (t : Terminal) : Bool :=
  match frames with
  | .subscript _ :: _ => startsOperand t || t == .closeBracket
  | .entries _ short [] .fresh :: _ =>
    startsOperand t || t == .ampersand || t == (if short then .closeBracket else .closeParen)
  | .entries _ _ _ .fresh :: _ =>
    startsOperand t || t == .ampersand || t == .closeBracket || t == .closeParen
  | .entries _ _ _ (.key _) :: _ => startsOperand t || t == .ampersand
  | .entries _ _ _ (.ref _) :: _ => startsPrimary t
  | .entries _ _ _ (.keyRef _) :: _ => startsPrimary t
  | .assign _ .plain :: _ => startsOperand t || t == .ampersand
  | .reference _ :: _ => startsPrimary t
  | _ => startsOperand t

/-- The terminals the scanner looks for. -/
def accepts (p : Parser) (t : Terminal) : Bool :=
  match p.phase with
  | .start => startsStatement t || t == .openTag || t == .closeTag
  | .statement => startsStatement t || t == .closeTag
  | .closed => false
  | .operand _ frames => operandAccepts frames t
  | .operator .. => followsOperand t
  | .arrayParen .. => t == .openParen
  | .globalName .. => t == .variable
  | .globalNext .. => t == .comma || t == .semicolon
  | .unsetParen _ => t == .openParen
  | .unsetName _ => t == .variable
  | .unsetNext .. => t == .comma || t == .closeParen
  | .unsetMore .. => t == .variable || t == .closeParen
  | .unsetEnd .. => t == .semicolon

/-- The binary operator of a token. -/
def binaryOp? (t : Token) : Option BinaryOp :=
  match t.terminal with
  | .equalityOp | .comparisonOp | .andOp | .orOp | .coalesce | .powerOp | .productOp | .sumOp
  | .dot | .lowAnd | .lowXor | .lowOr => BinaryOp.ofSymbol? (Text.lower t.text)
  | _ => none

/-- The assignment operator of a token. -/
def assignOp? (t : Token) : Option AssignOp :=
  match t.terminal with
  | .equals => some .plain
  | .assignOp => (BinaryOp.ofSymbol? (String.ofList t.text.toList.dropLast)).map .compound
  | _ => none

/-- Completes the operators of `limit` and above around an operand. -/
def reduce (limit : Nat) : List Frame → Operand → List Frame × Operand
  | .unary pos op :: rest, o =>
    if limit ≤ unaryLevel then reduce limit rest ⟨.unary pos op o.expr, pos⟩
    else (.unary pos op :: rest, o)
  | .binary left op :: rest, o =>
    if limit ≤ level op then
      reduce limit rest ⟨.binary left.start op left.expr o.expr, left.start⟩
    else (.binary left op :: rest, o)
  | .assign target op :: rest, o =>
    if limit ≤ assignLevel then
      reduce limit rest ⟨.assign target.start op target.expr o.expr, target.start⟩
    else (.assign target op :: rest, o)
  | .reference target :: rest, o =>
    if limit ≤ assignLevel then
      reduce limit rest ⟨.reference target.start target.expr o.expr, target.start⟩
    else (.reference target :: rest, o)
  | frames, o => (frames, o)

/-- After `&` only a primary expression with subscripts may stand. -/
def admitsOperator : List Frame → Bool
  | .reference _ :: _ => false
  | .entries _ _ _ (.ref _) :: _ => false
  | .entries _ _ _ (.keyRef _) :: _ => false
  | _ => true

/-- Where an assignment may stand without parentheses. -/
def admitsAssign : List Frame → Bool
  | .unary .. :: _ => false
  | .binary _ op :: _ => decide (level op < assignLevel)
  | frames => admitsOperator frames

/-- The entry whose value is complete. -/
def finishEntry (head : EntryHead) (value : Operand) : Entry :=
  match head with
  | .fresh => .item value.start value.expr false
  | .ref pos => .item pos value.expr true
  | .key k => .keyed k.start k.expr value.expr false
  | .keyRef k => .keyed k.start k.expr value.expr true

/-- The array literal of entries in reverse. -/
def finishArray (pos : Position) (short : Bool) (done : List Entry) : Operand :=
  ⟨.array pos short done.reverse, pos⟩

def name (t : Token) : Name := ⟨t.pos, String.ofList (t.text.toList.drop 1)⟩

/-- A token where an operand is due; none if it cannot stand there. -/
def takeOperand (context : Context) (frames : List Frame) (t : Token) : Option Phase :=
  let value (e : Expr) := some (Phase.operator context frames ⟨e, t.pos⟩)
  match t.terminal with
  | .variable => value (.variable t.pos (name t).name)
  | .number => value (.number t.pos t.text)
  | .doubleQuoted | .singleQuoted => value (.string t.pos t.text)
  | .trueWord => value (.boolean t.pos true)
  | .falseWord => value (.boolean t.pos false)
  | .nullWord => value (.null t.pos)
  | .openParen => some (.operand context (.group t.pos :: frames))
  | .openBracket => some (.operand context (.entries t.pos true [] .fresh :: frames))
  | .array => some (.arrayParen context frames t.pos)
  | .sumOp | .bang =>
    if operandAccepts frames t.terminal then
      (UnaryOp.ofSymbol? t.text).map fun op => .operand context (.unary t.pos op :: frames)
    else none
  | .ampersand =>
    match frames with
    | .assign target .plain :: rest => some (.operand context (.reference target :: rest))
    | .entries pos short done .fresh :: rest =>
      some (.operand context (.entries pos short done (.ref t.pos) :: rest))
    | .entries pos short done (.key k) :: rest =>
      some (.operand context (.entries pos short done (.keyRef k) :: rest))
    | _ => none
  | .closeBracket =>
    match frames with
    | .subscript base :: rest =>
      some (.operator context rest ⟨.append base.start base.expr, base.start⟩)
    | .entries pos true done .fresh :: rest =>
      some (.operator context rest (finishArray pos true done))
    | _ => none
  | .closeParen =>
    match frames with
    | .entries pos false done .fresh :: rest =>
      some (.operator context rest (finishArray pos false done))
    | _ => none
  | _ => none

/-- What a token after an operand leads to. -/
inductive Outcome
  | next (phase : Phase)
  | finished (s : Stmt)
deriving Inhabited

/-- A token that ends the expression `o` inside `frames`, all operators complete. -/
def takeEnd (context : Context) (frames : List Frame) (o : Operand) (t : Terminal) :
    Option Outcome :=
  match t, frames, context with
  | .semicolon, [], .expression => some (.finished (.expression o.start o.expr))
  | .semicolon, [], .echo pos done => some (.finished (.echo pos (o.expr :: done).reverse))
  | .comma, [], .echo pos done => some (.next (.operand (.echo pos (o.expr :: done)) []))
  | .comma, .entries pos short done head :: rest, _ =>
    some (.next (.operand context (.entries pos short (finishEntry head o :: done) .fresh :: rest)))
  | .arrow, .entries pos short done .fresh :: rest, _ =>
    some (.next (.operand context (.entries pos short done (.key o) :: rest)))
  | .closeParen, .group pos :: rest, _ => some (.next (.operator context rest ⟨o.expr, pos⟩))
  | .closeParen, .entries pos false done head :: rest, _ =>
    some (.next (.operator context rest (finishArray pos false (finishEntry head o :: done))))
  | .closeBracket, .entries pos true done head :: rest, _ =>
    some (.next (.operator context rest (finishArray pos true (finishEntry head o :: done))))
  | .closeBracket, .subscript base :: rest, _ =>
    some (.next (.operator context rest ⟨.subscript base.start base.expr o.expr, base.start⟩))
  | _, _, _ => none

/-- A token after an operand; none if it cannot stand there. -/
def takeOperator (context : Context) (frames : List Frame) (o : Operand) (t : Token) :
    Option Outcome :=
  match binaryOp? t, assignOp? t with
  | some op, _ =>
    let (frames, left) := reduce (completes op) frames o
    if admitsOperator frames then some (.next (.operand context (.binary left op :: frames)))
    else none
  | none, some op =>
    if admitsAssign frames then some (.next (.operand context (.assign o op :: frames))) else none
  | none, none =>
    if t.terminal == .openBracket then some (.next (.operand context (.subscript o :: frames)))
    else
      let (frames, o) := reduce 0 frames o
      takeEnd context frames o t.terminal

/-- A token at the start of a statement. -/
def takeStatement (t : Token) : Option Phase :=
  match t.terminal with
  | .semicolon => some .statement
  | .global => some (.globalName t.pos [])
  | .echo => some (.operand (.echo t.pos []) [])
  | .unset => some (.unsetParen t.pos)
  | .closeTag => some .closed
  | _ => takeOperand .expression [] t

/-- The parser after a token; none if the token cannot come here. -/
def feed (p : Parser) (t : Token) : Option Parser :=
  let go (phase : Phase) : Option Parser := some ⟨p.pos?.or (some t.pos), p.done, phase⟩
  let finish (s : Stmt) : Option Parser := some ⟨p.pos?.or (some t.pos), s :: p.done, .statement⟩
  match p.phase with
  | .start => if t.terminal == .openTag then go .statement else (takeStatement t).bind go
  | .statement => (takeStatement t).bind go
  | .closed => none
  | .operand context frames => (takeOperand context frames t).bind go
  | .operator context frames o =>
    match takeOperator context frames o t with
    | some (.next phase) => go phase
    | some (.finished s) => finish s
    | none => none
  | .arrayParen context frames pos =>
    if t.terminal == .openParen then
      go (.operand context (.entries pos false [] .fresh :: frames))
    else none
  | .globalName pos done =>
    if t.terminal == .variable then go (.globalNext pos (name t :: done)) else none
  | .globalNext pos done =>
    match t.terminal with
    | .comma => go (.globalName pos done)
    | .semicolon => finish (.global pos done.reverse)
    | _ => none
  | .unsetParen pos => if t.terminal == .openParen then go (.unsetName pos) else none
  | .unsetName pos => if t.terminal == .variable then go (.unsetNext pos [name t]) else none
  | .unsetNext pos done =>
    match t.terminal with
    | .comma => go (.unsetMore pos done)
    | .closeParen => go (.unsetEnd pos done)
    | _ => none
  | .unsetMore pos done =>
    match t.terminal with
    | .variable => go (.unsetNext pos (name t :: done))
    | .closeParen => go (.unsetEnd pos done)
    | _ => none
  | .unsetEnd pos done =>
    if t.terminal == .semicolon then finish (.unset pos done.reverse) else none

/-- The program, if the text may end here. -/
def finish? (p : Parser) : Option Program :=
  match p.phase with
  | .start | .statement | .closed => some ⟨p.pos?, p.done.reverse⟩
  | _ => none

end Parser

end PhpInterpreter.Source
