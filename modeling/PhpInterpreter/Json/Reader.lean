import PhpInterpreter.Json
import PhpInterpreter.Number.Numeral

/-!
Reading JSON text. Members keep their order, a repeated name its first place and last value;
`NaN` and the infinities are numbers; a number without fraction and exponent is an integer.
-/

namespace PhpInterpreter.Json

inductive Problem
  | byteOrderMark
  | extraData
  | expectedValue
  | expectedName
  | expectedColon
  | expectedComma
  | unterminatedString
  | controlCharacter
  | badEscape
  | badCodeEscape
deriving DecidableEq, Inhabited

namespace Problem

def message : Problem → String
  | byteOrderMark => "Unexpected UTF-8 BOM (decode using utf-8-sig)"
  | extraData => "Extra data"
  | expectedValue => "Expecting value"
  | expectedName => "Expecting property name enclosed in double quotes"
  | expectedColon => "Expecting ':' delimiter"
  | expectedComma => "Expecting ',' delimiter"
  | unterminatedString => "Unterminated string starting at"
  | controlCharacter => "Invalid control character at"
  | badEscape => "Invalid \\escape"
  | badCodeEscape => "Invalid \\uXXXX escape"

end Problem

/-- Why a text is not read. -/
inductive ReadFault
  /-- The text is not JSON at this character. -/
  | malformed (problem : Problem) (position : Nat)
  /-- An integer has too many digits. -/
  | digitLimit (count : Nat)
deriving DecidableEq, Inhabited

/-- The message with line, column and character of the problem in `text`. -/
def ReadFault.message (text : String) : ReadFault → String
  | malformed problem position =>
    let before := text.toList.take position
    let line := before.count '\n' + 1
    let column := (before.reverse.takeWhile (· != '\n')).length + 1
    problem.message ++ ": line " ++ decimalText line ++ " column " ++ decimalText column ++
      " (char " ++ decimalText position ++ ")"
  | digitLimit count =>
    "Exceeds the limit (" ++ decimalText Numeral.digitLimit ++
      " digits) for integer string conversion: value has " ++ decimalText count ++
      " digits; use sys.set_int_max_str_digits() to increase the limit"

/-- What is left of the text, and the position where it starts. -/
structure Cursor where
  position : Nat
  rest : List Char
deriving Inhabited

namespace Cursor

def advance (c : Cursor) (n : Nat) : Cursor := ⟨c.position + n, c.rest.drop n⟩

def isSpace (c : Char) : Bool := c == ' ' || c == '\t' || c == '\n' || c == '\r'

def skipSpace (c : Cursor) : Cursor := c.advance (c.rest.takeWhile isSpace).length

def fail {α : Type} (c : Cursor) (problem : Problem) : Except ReadFault α :=
  .error (.malformed problem c.position)

end Cursor

/-- The value of four hexadecimal digits. -/
def hex4? (cs : List Char) : Option Nat :=
  let value (c : Char) : Option Nat :=
    if c.isDigit then some (c.toNat - '0'.toNat)
    else if 'a'.toNat ≤ c.toNat && c.toNat ≤ 'f'.toNat then some (c.toNat - 'a'.toNat + 10)
    else if 'A'.toNat ≤ c.toNat && c.toNat ≤ 'F'.toNat then some (c.toNat - 'A'.toNat + 10)
    else none
  if (cs.take 4).length = 4 then ((cs.take 4).mapM value).map (Text.ofDigits 16) else none

/-- The character of a code unit. A surrogate that is in no pair is no character; it becomes the
replacement character U+FFFD. -/
def codeUnit (n : Nat) : Char :=
  if 0xd800 ≤ n && n < 0xe000 then '\ufffd' else Char.ofNat n

def simpleEscape? : Char → Option Char
  | '\x22' => some '\x22'
  | '\\' => some '\\'
  | '/' => some '/'
  | 'b' => some '\x08'
  | 'f' => some '\x0c'
  | 'n' => some '\n'
  | 'r' => some '\r'
  | 't' => some '\t'
  | _ => none

/-- The character of an escape after a backslash, and the number of characters it takes. Two
code units of a pair are one character. -/
def readEscape (start : Nat) (c : Cursor) : Except ReadFault (Char × Nat) :=
  match c.rest with
  | [] => .error (.malformed .unterminatedString start)
  | 'u' :: rest =>
    if rest.length ≤ 4 then c.fail .badCodeEscape
    else
      match hex4? rest with
      | none => .error (.malformed .badCodeEscape c.position)
      | some high =>
        let after := rest.drop 4
        if 0xd800 ≤ high ∧ high < 0xdc00 ∧ 6 < after.length ∧ after.take 2 = ['\\', 'u'] then
          match hex4? (after.drop 2) with
          | none => .error (.malformed .badCodeEscape (c.position + 6))
          | some low =>
            if 0xdc00 ≤ low ∧ low < 0xe000 then
              .ok (Char.ofNat (0x10000 + (high - 0xd800) * 0x400 + (low - 0xdc00)), 11)
            else .ok (codeUnit high, 5)
        else .ok (codeUnit high, 5)
  | e :: _ =>
    match simpleEscape? e with
    | some d => .ok (d, 1)
    | none => .error (.malformed .badEscape (c.position - 1))

/-- The characters of a string up to its closing quote; `start` is where it was opened. -/
def readString (start : Nat) : Nat → Cursor → Except ReadFault (List Char × Cursor)
  | 0, _ => .error (.malformed .unterminatedString start)
  | fuel + 1, c =>
    match c.rest with
    | [] => .error (.malformed .unterminatedString start)
    | '\x22' :: _ => .ok ([], c.advance 1)
    | '\\' :: _ => do
      let (d, length) ← readEscape start (c.advance 1)
      let (ds, after) ← readString start fuel (c.advance (1 + length))
      return (d :: ds, after)
    | d :: _ =>
      if d.toNat < 0x20 then c.fail .controlCharacter
      else do
        let (ds, after) ← readString start fuel (c.advance 1)
        return (d :: ds, after)

/-- A fraction of a number: a point and at least one digit. -/
def takeFraction : List Char → List Char
  | '.' :: rest =>
    match rest.takeWhile Char.isDigit with
    | [] => []
    | ds => '.' :: ds
  | _ => []

/-- An exponent of a number: a mark, an optional sign and at least one digit. -/
def takeExponent : List Char → List Char
  | c :: rest =>
    if c == 'e' || c == 'E' then
      let sign := match rest with
        | '-' :: _ => ['-']
        | '+' :: _ => ['+']
        | _ => []
      match (rest.drop sign.length).takeWhile Char.isDigit with
      | [] => []
      | ds => c :: (sign ++ ds)
    else []
  | [] => []

/-- The integer part of a number: zero, or digits without a leading zero. -/
def takeWhole : List Char → List Char
  | '0' :: _ => ['0']
  | cs => cs.takeWhile Char.isDigit

/-- A number; none if there is none here. -/
def readNumber (c : Cursor) : Except ReadFault (Json × Cursor) :=
  let sign := match c.rest with
    | '-' :: _ => ['-']
    | _ => []
  let cs := c.rest.drop sign.length
  match takeWhole cs with
  | [] => c.fail .expectedValue
  | whole =>
    let fraction := takeFraction (cs.drop whole.length)
    let exponent := takeExponent (cs.drop (whole.length + fraction.length))
    let text := sign ++ whole ++ fraction ++ exponent
    let after := c.advance text.length
    match Numeral.take? text with
    | none => c.fail .expectedValue
    | some (n, _) =>
      if n.isInteger then
        if Numeral.digitLimit < n.whole.length then .error (.digitLimit n.whole.length)
        else .ok (scalar (.number (.int n.toInt)), after)
      else .ok (scalar (.number (.float n.toDouble)), after)

/-- The fixed words of JSON, infinities and not-a-number included. -/
def words : List (String × Scalar) := [
  ("null", .null),
  ("true", .bool true),
  ("false", .bool false),
  ("NaN", .number (.float .nan)),
  ("Infinity", .number (.float (.infinite false))),
  ("-Infinity", .number (.float (.infinite true)))]

/-- The word that starts here. -/
def word? (cs : List Char) : Option (String × Scalar) :=
  words.find? fun w => w.1.toList.isPrefixOf cs

mutual

/-- A value; `fuel` bounds the number of characters. -/
def readValue : Nat → Cursor → Except ReadFault (Json × Cursor)
  | 0, c => c.fail .expectedValue
  | fuel + 1, c =>
    match c.rest with
    | '\x22' :: _ => do
      let (s, c) ← readString c.position (fuel + 1) (c.advance 1)
      return (scalar (.string (String.ofList s)), c)
    | '\x7b' :: _ => do
      let c := (c.advance 1).skipSpace
      if c.rest.head? == some '\x7d' then return (object [], c.advance 1)
      else
        let (members, c) ← readMembers fuel c []
        return (object members, c)
    | '[' :: _ => do
      let c := (c.advance 1).skipSpace
      if c.rest.head? == some ']' then return (list [], c.advance 1)
      else
        let (items, c) ← readItems fuel c
        return (list items, c)
    | cs =>
      match word? cs with
      | some (w, v) => .ok (scalar v, c.advance w.length)
      | none => readNumber c

/-- The items of a list up to its closing bracket. -/
def readItems : Nat → Cursor → Except ReadFault (List Json × Cursor)
  | 0, c => c.fail .expectedValue
  | fuel + 1, c => do
    let (v, c) ← readValue fuel c
    let c := c.skipSpace
    match c.rest with
    | ']' :: _ => return ([v], c.advance 1)
    | ',' :: _ =>
      let (vs, c) ← readItems fuel (c.advance 1).skipSpace
      return (v :: vs, c)
    | _ => c.fail .expectedComma

/-- The members of an object up to its closing brace, after those already read. -/
def readMembers : Nat → Cursor → List (String × Json) →
    Except ReadFault (List (String × Json) × Cursor)
  | 0, c, _ => c.fail .expectedName
  | fuel + 1, c, done =>
    match c.rest with
    | '\x22' :: _ => do
      let (name, c) ← readString c.position (fuel + 1) (c.advance 1)
      let c := c.skipSpace
      match c.rest with
      | ':' :: _ =>
        let (v, c) ← readValue fuel (c.advance 1).skipSpace
        let c := c.skipSpace
        let done := Assoc.insert (String.ofList name) v done
        match c.rest with
        | '\x7d' :: _ => return (done, c.advance 1)
        | ',' :: _ => readMembers fuel (c.advance 1).skipSpace done
        | _ => c.fail .expectedComma
      | _ => c.fail .expectedColon
    | _ => c.fail .expectedName

end

/-- Reads a whole text as one value. -/
def parse (text : String) : Except ReadFault Json :=
  let cs := text.toList
  if cs.head? == some '\ufeff' then .error (.malformed .byteOrderMark 0)
  else do
    let start := (Cursor.mk 0 cs).skipSpace
    let (v, c) ← readValue (2 * cs.length + 2) start
    let c := c.skipSpace
    if c.rest.isEmpty then return v else c.fail .extraData

end PhpInterpreter.Json
