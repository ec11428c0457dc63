import PhpInterpreter.Fault
import PhpInterpreter.Text.Blank
import PhpInterpreter.Text.Digit

/-!
Decimal numerals: an optional sign, digits with an optional point, an optional exponent. Digits may
be those of any script. A string is numeric if it is a numeral with blanks around it. Reading and
writing decimal integers stop at the same number of digits.
-/

namespace PhpInterpreter

/-- The parts of a numeral, digits by value. -/
structure Numeral where
  negative : Bool
  whole : List Nat
  fraction : Option (List Nat)
  exponent : Option (Bool × List Nat)
deriving DecidableEq, Inhabited

namespace Numeral

/-- The values of the leading digits, and what follows them. -/
def takeDigits : List Char → List Nat × List Char
  | [] => ([], [])
  | c :: rest =>
    match Text.digit? c with
    | some d =>
      let (ds, after) := takeDigits rest
      (d :: ds, after)
    | none => ([], c :: rest)

/-- An optional sign. -/
def takeSign : List Char → Bool × List Char
  | '-' :: rest => (true, rest)
  | '+' :: rest => (false, rest)
  | cs => (false, cs)

/-- An optional exponent: without digits it is none of the numeral. -/
def takeExponent : List Char → Option (Bool × List Nat) × List Char
  | c :: rest =>
    if c == 'e' || c == 'E' then
      let (negative, afterSign) := takeSign rest
      match takeDigits afterSign with
      | ([], _) => (none, c :: rest)
      | (ds, after) => (some (negative, ds), after)
    else (none, c :: rest)
  | [] => (none, [])

/-- The longest numeral at the start of the characters, and what follows it. -/
def take? (cs : List Char) : Option (Numeral × List Char) :=
  let (negative, cs) := takeSign cs
  match takeDigits cs with
  | ([], '.' :: rest) =>
    match takeDigits rest with
    | ([], _) => none
    | (fs, rest) =>
      let (e, rest) := takeExponent rest
      some (⟨negative, [], some fs, e⟩, rest)
  | ([], _) => none
  | (ds, '.' :: rest) =>
    let (fs, rest) := takeDigits rest
    let (e, rest) := takeExponent rest
    some (⟨negative, ds, some fs, e⟩, rest)
  | (ds, rest) =>
    let (e, rest) := takeExponent rest
    some (⟨negative, ds, none, e⟩, rest)

/-- A numeral without point and exponent denotes an integer. -/
def isInteger (n : Numeral) : Bool := n.fraction.isNone && n.exponent.isNone

/-- The integer of the digits before the point. -/
def toInt (n : Numeral) : Int :=
  let m : Int := Text.ofDigits 10 n.whole
  if n.negative then -m else m

/-- The double nearest to the numeral. -/
def toDouble (n : Numeral) : Double :=
  let fs := n.fraction.getD []
  let e : Int := match n.exponent with
    | none => 0
    | some (true, ds) => -(Text.ofDigits 10 ds : Int)
    | some (false, ds) => Text.ofDigits 10 ds
  Decimal.toDouble n.negative ⟨Text.ofDigits 10 (n.whole ++ fs), e - fs.length⟩

/-- The most digits a decimal integer may have, read or written. -/
def digitLimit : Nat := 4300

/-- The number a numeral denotes: an integer without point or exponent in 64 bits, else a
double. -/
def toNumber (n : Numeral) : Except Crash Number :=
  if n.isInteger then
    if digitLimit < n.whole.length then .error .digitLimit
    else if fits n.toInt then .ok (.int n.toInt)
    else match Double.ofInt? n.toInt with
      | some x => .ok (.float x)
      | none => .error .outOfRange
  else .ok (.float n.toDouble)

end Numeral

/-- The text of an integer. -/
def integerText (n : Int) : Except Crash String :=
  if Numeral.digitLimit < (decimalDigits n.natAbs).length then .error .digitLimit
  else .ok (decimalText n)

/-- The text a program prints. -/
def Number.text : Number → Except Crash String
  | int n => integerText n
  | float x => .ok x.text

/-- The numeric reading of a string. -/
inductive NumericPrefix
  | absent
  | found (value : Number) (whole : Bool)
deriving DecidableEq, Inhabited

/-- Reads the numeral after leading blanks; it is the whole string if only blanks follow. -/
def readNumeric (s : String) : Except Crash NumericPrefix :=
  match Numeral.take? (s.toList.dropWhile Text.isAsciiBlank) with
  | none => .ok .absent
  | some (n, rest) => do
    let value ← n.toNumber
    return .found value (rest.all Text.isAsciiBlank)

/-- The number a numeric string denotes; none for other strings. -/
def wholeNumber? (s : String) : Except Crash (Option Number) := do
  match ← readNumeric s with
  | .found value true => return some value
  | _ => return none

/-- Whether a string is a numeral with blanks around it. -/
def isNumeric (s : String) : Except Crash Bool := do
  return (← wholeNumber? s).isSome

end PhpInterpreter
