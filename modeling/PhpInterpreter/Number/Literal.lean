import PhpInterpreter.Node.Print
import PhpInterpreter.Number.Numeral

/-!
The values of literals. A numeric literal is a decimal, hexadecimal (`0x`), octal (`0o` or a leading
zero) or binary (`0b`) integer, or a double. Underscores may stand anywhere.
-/

namespace PhpInterpreter.Literal

/-- Blanks that may stand around a number: all but the ASCII separators. -/
def isPadding (c : Char) : Bool := Text.isBlank c && !(28 ≤ c.toNat && c.toNat ≤ 31)

/-- The value of a digit in bases up to sixteen. -/
def digitValue? (c : Char) : Option Nat :=
  if 'a'.toNat ≤ c.toNat && c.toNat ≤ 'f'.toNat then some (c.toNat - 'a'.toNat + 10)
  else if 'A'.toNat ≤ c.toNat && c.toNat ≤ 'F'.toNat then some (c.toNat - 'A'.toNat + 10)
  else Text.digit? c

/-- The mark of a base after a zero. -/
def baseMark? : Nat → Option Char
  | 16 => some 'x'
  | 8 => some 'o'
  | 2 => some 'b'
  | _ => none

/-- Drops a zero, of any script, and the mark of the base. -/
def dropMark (base : Nat) : List Char → List Char
  | zero :: mark :: rest =>
    if Text.digit? zero == some 0 && baseMark? base == some mark.toLower then rest
    else zero :: mark :: rest
  | cs => cs

/-- Digits of a base, at least one; decimal integers have a limit on their number. -/
def readDigits? (base : Nat) (cs : List Char) : Option Nat := do
  if cs.isEmpty || (base == 10 && decide (Numeral.digitLimit < cs.length)) then none
  else
    let ds ← cs.mapM digitValue?
    if ds.all (decide <| · < base) then some (Text.ofDigits base ds) else none

/-- An integer in a base, with optional padding, sign and mark of the base. -/
def readInt? (base : Nat) (cs : List Char) : Option Int := do
  let (negative, cs) := Numeral.takeSign (Text.trimBy isPadding cs)
  let n ← readDigits? base (dropMark base cs)
  return if negative then -(n : Int) else n

/-- A double, with optional padding and sign. -/
def readDouble? (cs : List Char) : Option Double :=
  match Numeral.take? (Text.trimBy isPadding cs) with
  | some (n, []) => some n.toDouble
  | _ => none

/-- The number of an unsigned literal in lower case, before it is checked for range. -/
def readUnsigned? : List Char → Option Number
  | '0' :: 'x' :: cs => (readInt? 16 cs).map .int
  | '0' :: 'b' :: cs => (readInt? 2 cs).map .int
  | '0' :: 'o' :: cs => (readInt? 8 cs).map .int
  | cs =>
    if cs.contains '.' || cs.contains 'e' then (readDouble? cs).map .float
    else
      match cs with
      | '0' :: _ :: _ => (readInt? 8 cs).map .int
      | _ => (readInt? 10 cs).map .int

/-- The number a literal text denotes; an integer past 64 bits is a double. -/
def read (text : String) : Except Fault Number :=
  let cs := (Text.trimBy Text.isBlank text.toList).filter (· != '_')
  let (negative, body) := Numeral.takeSign cs
  match readUnsigned? (body.map Char.toLower) with
  | none => .error (Fault.fatal (.invalidLiteral ("'" ++ text ++ "'")))
  | some n =>
    match (if negative then n.neg else n) with
    | .float x => .ok (.float x)
    | .int i =>
      if fits i then .ok (.int i)
      else match Double.ofInt? i with
        | some x => .ok (.float x)
        | none => .error (.crash .outOfRange)

end PhpInterpreter.Literal

namespace PhpInterpreter.Datum

/-- The number of a numeric literal: a number as it is, else the text read as a literal. -/
def toNumber : Datum → Except Fault Number
  | scalar (.bool b) => .error (Fault.fatal (.invalidLiteral (Scalar.bool b).display))
  | scalar (.number n) => .ok n
  | d => Literal.read d.shown

/-- The text of a string literal; null counts as empty. -/
def toText (d : Datum) : String := if d.isNull then "" else d.shown

/-- The truth of a boolean literal: a text is true if it says so. -/
def toBool : Datum → Bool
  | scalar (.string s) => Text.lower s == "true"
  | d => d.truthy

end PhpInterpreter.Datum
