import PhpInterpreter.Text.Blank
import PhpInterpreter.Text.Digit
import PhpInterpreter.Text.Word

/-!
Terminals of the source language, the texts they match, and tokens.
-/

namespace PhpInterpreter.Source

/-- Line and column, both from one; columns count characters. -/
structure Position where
  line : Nat
  column : Nat
deriving DecidableEq, Inhabited

namespace Position

def start : Position := ⟨1, 1⟩

/-- The position after a character. -/
def step (p : Position) (c : Char) : Position :=
  if c == '\n' then ⟨p.line + 1, 1⟩ else ⟨p.line, p.column + 1⟩

/-- The position after some characters. -/
def advance (p : Position) (cs : List Char) : Position := cs.foldl step p

end Position

inductive Terminal
  | number | variable | doubleQuoted | singleQuoted
  | blockComment | lineComment | space
  | global | openTag | array | falseWord | unset | echo | nullWord | trueWord
  | assignOp | equalityOp | lowAnd | lowXor | comparisonOp | andOp | closeTag | coalesce | lowOr
  | orOp | powerOp | arrow | productOp | sumOp | ampersand | comma | dot | equals
  | openParen | openBracket | bang | closeParen | closeBracket | semicolon
deriving DecidableEq, Inhabited

namespace Terminal

/-- All terminals, in the order in which they are tried. -/
def all : List Terminal :=
  [number, .variable, doubleQuoted, singleQuoted, blockComment, lineComment, space, global, openTag,
    array, falseWord, unset, echo, nullWord, trueWord, assignOp, equalityOp, lowAnd, lowXor,
    comparisonOp, andOp, closeTag, coalesce, lowOr, orOp, powerOp, arrow, productOp, sumOp,
    ampersand, comma, dot, equals, openParen, openBracket, bang, closeParen, closeBracket,
    semicolon]

/-- Space and comments may stand anywhere and are skipped. -/
def ignored : Terminal → Bool
  | blockComment | lineComment | space => true
  | _ => false

/-- Characters a name starts with. -/
def startsName (c : Char) : Bool :=
  c.isAlpha || c == '_' || (0x7f ≤ c.toNat && c.toNat ≤ 0xffff)

def continuesName (c : Char) : Bool := startsName c || c.isDigit

/-- Space, tab, form feed, carriage return and line feed. -/
def isSpace (c : Char) : Bool :=
  c == ' ' || c == '\t' || c == '\x0c' || c == '\r' || c == '\n'

/-- Keywords ignore case; the long s is a form of the letter s. -/
def foldCase (c : Char) : Char := if c == '\u017f' then 's' else c.toLower

/-- The length of a keyword at the start of the characters, else zero. -/
def keyword (word : String) (cs : List Char) : Nat :=
  if (cs.take word.length).map foldCase == word.toList then word.length else 0

/-- The length of the first of several texts at the start of the characters, else zero. -/
def oneOf (texts : List String) (cs : List Char) : Nat :=
  match texts.find? fun t => t.toList.isPrefixOf cs with
  | some t => t.length
  | none => 0

/-- The number of leading characters of a class. -/
def run (p : Char → Bool) (cs : List Char) : Nat := (cs.takeWhile p).length

/-- An exponent: a mark, an optional sign and digits. -/
def exponent (cs : List Char) : Nat :=
  match cs with
  | c :: rest =>
    if c == 'e' || c == 'E' then
      let sign := match rest with
        | '+' :: _ => 1
        | '-' :: _ => 1
        | _ => 0
      let digits := run Text.isDigit (rest.drop sign)
      if digits = 0 then 0 else 1 + sign + digits
    else 0
  | [] => 0

/-- A digit followed by digits and underscores. -/
def digits (cs : List Char) : Nat :=
  match cs with
  | c :: rest => if Text.isDigit c then 1 + run (fun d => Text.isDigit d || d == '_') rest else 0
  | [] => 0

/-- A number with a base mark, such as `0x1F`. -/
def based (mark : Char) (p : Char → Bool) (cs : List Char) : Nat :=
  match cs with
  | '0' :: c :: rest =>
    if c.toLower == mark && run (fun d => p d || d == '_') rest != 0 then
      2 + run (fun d => p d || d == '_') rest
    else 0
  | _ => 0

def isHexDigit (c : Char) : Bool :=
  c.isDigit || ('a'.toNat ≤ c.toLower.toNat && c.toLower.toNat ≤ 'f'.toNat)

def isOctalDigit (c : Char) : Bool := '0'.toNat ≤ c.toNat && c.toNat ≤ '7'.toNat

def isBinaryDigit (c : Char) : Bool := c == '0' || c == '1'

/-- A decimal number with digits after its point. -/
def fractional (cs : List Char) : Nat :=
  let whole := digits cs
  match cs.drop whole with
  | '.' :: rest =>
    let fraction := digits rest
    if fraction = 0 then 0
    else whole + 1 + fraction + exponent (rest.drop fraction)
  | _ => 0

/-- A decimal number with at most a point after its digits. -/
def plainNumber (cs : List Char) : Nat :=
  let whole := digits cs
  if whole = 0 then 0
  else
    let point := if (cs.drop whole).head? == some '.' then 1 else 0
    whole + point + exponent (cs.drop (whole + point))

/-- The first length that is not zero. -/
def firstOf (lengths : List Nat) : Nat := (lengths.find? (· != 0)).getD 0

/-- The length of a number: the base forms come first, then those with a fraction. -/
def numberLength (cs : List Char) : Nat :=
  firstOf [based 'x' isHexDigit cs, based 'b' isBinaryDigit cs, based 'o' isOctalDigit cs,
    fractional cs, plainNumber cs]

def variableLength (cs : List Char) : Nat :=
  match cs with
  | '$' :: c :: rest => if startsName c then 2 + run continuesName rest else 0
  | _ => 0

/-- The length up to and with the closing quote; a backslash takes the next character with it.
Zero if the quote is not closed. -/
def closingQuote (quote : Char) : List Char → Nat
  | [] => 0
  | '\\' :: _ :: rest =>
    match closingQuote quote rest with
    | 0 => 0
    | n => n + 2
  | c :: rest =>
    if c == quote then 1
    else if c == '\\' then 0
    else
      match closingQuote quote rest with
      | 0 => 0
      | n => n + 1

def quotedLength (quote : Char) (cs : List Char) : Nat :=
  match cs with
  | c :: rest =>
    if c == quote then
      match closingQuote quote rest with
      | 0 => 0
      | n => n + 1
    else 0
  | [] => 0

/-- The length up to and with the first end of a block comment; zero if there is none. -/
def closingComment : List Char → Nat
  | [] => 0
  | '*' :: '/' :: _ => 2
  | _ :: rest =>
    match closingComment rest with
    | 0 => 0
    | n => n + 1

def blockCommentLength (cs : List Char) : Nat :=
  match cs with
  | '/' :: '*' :: rest =>
    match closingComment rest with
    | 0 => 0
    | n => n + 2
  | _ => 0

def lineCommentLength (cs : List Char) : Nat :=
  match cs with
  | '#' :: rest => 1 + run (· != '\n') rest
  | '/' :: '/' :: rest => 2 + run (· != '\n') rest
  | _ => 0

/-- The open tag ends where a word ends. -/
def openTagLength (cs : List Char) : Nat :=
  let n := keyword "<?php" cs
  if n != 0 && !((cs.drop n).head?.any Text.isWord) then n else 0

/-- The number of characters a terminal matches at the start, zero if it does not match. -/
def length (cs : List Char) : Terminal → Nat
  | number => numberLength cs
  | .variable => variableLength cs
  | doubleQuoted => quotedLength '\x22' cs
  | singleQuoted => quotedLength '\x27' cs
  | blockComment => blockCommentLength cs
  | lineComment => lineCommentLength cs
  | space => run isSpace cs
  | global => keyword "global" cs
  | openTag => openTagLength cs
  | array => keyword "array" cs
  | falseWord => keyword "false" cs
  | unset => keyword "unset" cs
  | echo => keyword "echo" cs
  | nullWord => keyword "null" cs
  | trueWord => keyword "true" cs
  | assignOp => oneOf ["**=", "??=", "+=", "-=", "*=", "/=", ".=", "%="] cs
  | equalityOp => oneOf ["===", "!==", "<=>", "==", "!=", "<>"] cs
  | lowAnd => keyword "and" cs
  | lowXor => keyword "xor" cs
  | comparisonOp => oneOf ["<=", ">=", "<", ">"] cs
  | andOp => oneOf ["&&"] cs
  | closeTag => oneOf ["?>"] cs
  | coalesce => oneOf ["??"] cs
  | lowOr => keyword "or" cs
  | orOp => oneOf ["||"] cs
  | powerOp => oneOf ["**"] cs
  | arrow => oneOf ["=>"] cs
  | productOp => oneOf ["*", "/", "%"] cs
  | sumOp => oneOf ["+", "-"] cs
  | ampersand => oneOf ["&"] cs
  | comma => oneOf [","] cs
  | dot => oneOf ["."] cs
  | equals => oneOf ["="] cs
  | openParen => oneOf ["("] cs
  | openBracket => oneOf ["["] cs
  | bang => oneOf ["!"] cs
  | closeParen => oneOf [")"] cs
  | closeBracket => oneOf ["]"] cs
  | semicolon => oneOf [";"] cs

/-- The first terminal of a class that matches, and how many characters. -/
def first? (p : Terminal → Bool) (cs : List Char) : Option (Terminal × Nat) :=
  all.findSome? fun t =>
    if p t then
      match length cs t with
      | 0 => none
      | n => some (t, n)
    else none

end Terminal

/-- A terminal with the text it matched and where. -/
structure Token where
  terminal : Terminal
  text : String
  pos : Position
deriving DecidableEq, Inhabited

end PhpInterpreter.Source
