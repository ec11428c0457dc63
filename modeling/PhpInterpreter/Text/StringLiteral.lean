import PhpInterpreter.Text.Digit

/-!
String literals. In single quotes only the backslash and the quote are escaped; in double quotes
there are escapes for controls and code points, and variables may not be mentioned.
-/

namespace PhpInterpreter.StringLiteral

/-- The characters between the delimiters. -/
def body (raw : List Char) : List Char := (raw.drop 1).dropLast

/-- A backslash before a backslash or a single quote stands for that character. -/
def unescapeSingle : List Char → List Char
  | '\\' :: c :: rest =>
    if c == '\\' || c == '\x27' then c :: unescapeSingle rest
    else '\\' :: unescapeSingle (c :: rest)
  | c :: rest => c :: unescapeSingle rest
  | [] => []

/-- The text of a single-quoted literal. -/
def decodeSingle (raw : String) : String := String.ofList (unescapeSingle (body raw.toList))

/-- Escapes the backslash and the single quote. -/
def escapeSingle : List Char → List Char
  | [] => []
  | c :: rest =>
    if c == '\\' || c == '\x27' then '\\' :: c :: escapeSingle rest else c :: escapeSingle rest

/-- The single-quoted literal of a text. -/
def encodeSingle (s : String) : String :=
  String.ofList ('\x27' :: (escapeSingle s.toList ++ ['\x27']))

/-- Why a double-quoted literal has no text. -/
inductive Fault
  /-- A variable is mentioned. -/
  | interpolation
  /-- A code point escape of `2 ^ 31` or more. -/
  | hugeCodePoint
  /-- A code point escape past the last code point. -/
  | noCodePoint
deriving DecidableEq, Inhabited

/-- What makes a dollar sign mention a variable: a letter, an underscore, a code point from `7f`
to `ffff`, or an opening brace. -/
def startsMention (c : Char) : Bool :=
  c.isAlpha || c == '_' || (0x7f ≤ c.toNat && c.toNat ≤ 0xffff) || c == '\x7b'

/-- Whether pairs of backslashes, or none, come first and then a dollar sign that mentions a
variable. -/
def startsWithMention : List Char → Bool
  | '\\' :: '\\' :: rest => startsWithMention rest
  | '$' :: c :: _ => startsMention c
  | _ => false

/-- Whether such a mention stands after a character that is not a backslash. -/
def hasLaterMention : List Char → Bool
  | c :: rest => (c != '\\' && startsWithMention rest) || hasLaterMention rest
  | [] => false

/-- Whether a dollar sign behind an even number of backslashes mentions a variable. -/
def mentions (cs : List Char) : Bool := startsWithMention cs || hasLaterMention cs

/-- The characters with a one-letter escape. -/
def simpleEscape? (c : Char) : Option Char :=
  match c with
  | 'n' => some '\n'
  | 't' => some '\t'
  | 'r' => some '\r'
  | 'v' => some '\x0b'
  | 'e' => some '\x1b'
  | 'f' => some '\x0c'
  | '\\' => some '\\'
  | '$' => some '$'
  | '\x22' => some '\x22'
  | _ => none

def octal? (c : Char) : Option Nat :=
  if '0'.toNat ≤ c.toNat && c.toNat ≤ '7'.toNat then some (c.toNat - '0'.toNat) else none

def hex? (c : Char) : Option Nat :=
  if '0'.toNat ≤ c.toNat && c.toNat ≤ '9'.toNat then some (c.toNat - '0'.toNat)
  else if 'a'.toNat ≤ c.toNat && c.toNat ≤ 'f'.toNat then some (c.toNat - 'a'.toNat + 10)
  else if 'A'.toNat ≤ c.toNat && c.toNat ≤ 'F'.toNat then some (c.toNat - 'A'.toNat + 10)
  else none

/-- At most `limit` leading digits by value. -/
def takeDigits (value? : Char → Option Nat) : Nat → List Char → List Nat
  | limit + 1, c :: rest =>
    match value? c with
    | some d => d :: takeDigits value? limit rest
    | none => []
  | _, _ => []

/-- An escape of the characters after a backslash. -/
inductive Escape
  /-- The character it stands for and the number of characters it takes. -/
  | char (c : Char) (length : Nat)
  | bad (fault : Fault)
  | none
deriving DecidableEq, Inhabited

/-- The code point of an escape in braces. A surrogate is no character; it becomes the replacement
character U+FFFD. -/
def codePoint (n length : Nat) : Escape :=
  if 0x80000000 ≤ n then .bad .hugeCodePoint
  else if 0x110000 ≤ n then .bad .noCodePoint
  else .char (if 0xd800 ≤ n && n < 0xe000 then '\ufffd' else Char.ofNat n) length

/-- The escape at the start of the characters after a backslash: one letter, one to three octal
digits modulo 256, `x` with one or two hexadecimal digits, or `u` with some in braces. -/
def escape (cs : List Char) : Escape :=
  match cs with
  | [] => .none
  | c :: rest =>
    match simpleEscape? c with
    | some d => .char d 1
    | none =>
      match takeDigits octal? 3 (c :: rest) with
      | d :: ds => .char (Char.ofNat (Text.ofDigits 8 (d :: ds) % 256)) (d :: ds).length
      | [] =>
        if c == 'x' then
          match takeDigits hex? 2 rest with
          | [] => .none
          | ds => .char (Char.ofNat (Text.ofDigits 16 ds)) (ds.length + 1)
        else if c == 'u' && rest.head? == some '\x7b' then
          let ds := takeDigits hex? rest.length (rest.drop 1)
          if ds.isEmpty || (rest.drop (ds.length + 1)).head? != some '\x7d' then .none
          else codePoint (Text.ofDigits 16 ds) (ds.length + 3)
        else .none

/-- Replaces the escapes from left to right; a backslash without one stands for itself. The first
argument counts characters of an escape still to be skipped. -/
def unescapeDouble : Nat → List Char → Except Fault (List Char)
  | _, [] => .ok []
  | skip + 1, _ :: rest => unescapeDouble skip rest
  | 0, c :: rest =>
    if c == '\\' then
      match escape rest with
      | .char d length => (unescapeDouble length rest).map (d :: ·)
      | .bad fault => .error fault
      | .none => (unescapeDouble 0 rest).map ('\\' :: ·)
    else (unescapeDouble 0 rest).map (c :: ·)

/-- The text of a double-quoted literal. -/
def decodeDouble (raw : String) : Except Fault String :=
  let cs := body raw.toList
  if mentions cs then .error .interpolation
  else (unescapeDouble 0 cs).map String.ofList

end PhpInterpreter.StringLiteral
