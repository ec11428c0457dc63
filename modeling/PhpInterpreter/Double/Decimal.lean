import PhpInterpreter.Double.Basic

/-!
Decimal texts of doubles: reading, the shortest text that reads back, and a fixed number of
significant digits.
-/

namespace PhpInterpreter

/-- `coefficient * 10 ^ exponent`. -/
structure Decimal where
  coefficient : Nat
  exponent : Int
deriving DecidableEq, Inhabited

/-- The decimal digits of a natural number. -/
def decimalDigits (n : Nat) : List Char := Nat.toDigits 10 n

/-- The decimal digits of an integer, however many, after its sign. -/
def decimalText (n : Int) : String :=
  if n < 0 then String.ofList ('-' :: decimalDigits n.natAbs)
  else String.ofList (decimalDigits n.natAbs)

namespace Decimal

/-- Numerator and denominator of a decimal. -/
def quotient (d : Decimal) : Nat × Nat :=
  if 0 ≤ d.exponent then (d.coefficient * Nat.pow 10 d.exponent.toNat, 1)
  else (d.coefficient, Nat.pow 10 (-d.exponent).toNat)

/-- The double nearest to `± d`. The first two tests only keep the powers of ten small: such a
decimal is past the largest double, or below half of the smallest. -/
def toDouble (negative : Bool) (d : Decimal) : Double :=
  if d.coefficient = 0 then .finite negative 0 (-1074)
  else if 1024 ≤ 3 * d.exponent then .infinite negative
  else if (d.coefficient.log2 : Int) + 1 + 3 * d.exponent ≤ -1076 then .finite negative 0 (-1074)
  else Double.ofQuotient negative d.quotient.1 d.quotient.2

/-- The exponent of the leading decimal digit of a positive quotient. -/
def leadingPlace (num den : Nat) : Int :=
  if den ≤ num then ((decimalDigits (num / den)).length : Int) - 1
  else -((decimalDigits ((den + num - 1) / num - 1)).length : Int)

/-- The quotient over `10 ^ place`, again as numerator and denominator. -/
def shift (num den : Nat) (place : Int) : Nat × Nat :=
  if 0 ≤ place then (num, den * Nat.pow 10 place.toNat)
  else (num * Nat.pow 10 (-place).toNat, den)

/-- The quotient rounded to `count` significant digits, a tie going to the even neighbour. -/
def significant (count num den : Nat) : Decimal :=
  let place := leadingPlace num den - (count - 1 : Nat)
  let (n, d) := shift num den place
  ⟨roundHalfEven n d, place⟩

/-- Of the two neighbours of the quotient on the grid of `count` significant digits, the nearer
one that satisfies `reads`, the even one at equal distance. -/
def neighbour? (reads : Decimal → Bool) (num den count : Nat) : Option Decimal :=
  let place := leadingPlace num den - (count - 1 : Nat)
  let (n, d) := shift num den place
  let below : Decimal := ⟨n / d, place⟩
  let above : Decimal := ⟨n / d + 1, place⟩
  let nearest : Decimal := ⟨roundHalfEven n d, place⟩
  if reads nearest then some nearest
  else if reads below then some below
  else if reads above then some above
  else none

/-- Drops trailing zeros of the coefficient; `fuel` bounds how many. -/
def dropZeros : Nat → Decimal → Decimal
  | 0, d => d
  | fuel + 1, d =>
    if d.coefficient % 10 = 0 ∧ d.coefficient ≠ 0 then
      dropZeros fuel ⟨d.coefficient / 10, d.exponent + 1⟩
    else d

/-- The same value without trailing zeros. -/
def normalize (d : Decimal) : Decimal := dropZeros (decimalDigits d.coefficient).length d

/-- The shortest decimal that reads back as the positive double `mantissa * 2 ^ exponent`; of
several the nearest to it. Seventeen digits always suffice. -/
def shortest (mantissa : Nat) (exponent : Int) : Decimal :=
  let (num, den) := unscale mantissa 1 (-exponent)
  let reads := fun d => toDouble false d == Double.finite false mantissa exponent
  match (List.range 17).findSome? fun i => neighbour? reads num den (i + 1) with
  | some d => d.normalize
  | none => (significant 17 num den).normalize

/-- The digits of the coefficient and the exponent of the first of them. -/
def digits (d : Decimal) : List Char × Int :=
  let cs := decimalDigits d.coefficient
  (cs, d.exponent + cs.length - 1)

/-- Positional text: digits with a point where it belongs, without a fraction when there is none. -/
def positional (d : Decimal) : String :=
  let (cs, place) := d.digits
  if place < 0 then
    String.ofList ("0.".toList ++ List.replicate (-place - 1).toNat '0' ++ cs)
  else
    let whole := (place + 1).toNat
    if cs.length ≤ whole then String.ofList (cs ++ List.replicate (whole - cs.length) '0')
    else String.ofList (cs.take whole ++ '.' :: cs.drop whole)

end Decimal

/-- Where a notation for doubles switches to exponents, and how it writes them. -/
structure NumberStyle where
  /-- First place of the leading digit written with an exponent. -/
  limit : Int
  /-- Whether a number without fraction gets one. -/
  fraction : Bool
  /-- The mark before an exponent. -/
  mark : String
  /-- The least number of exponent digits. -/
  width : Nat
  /-- Whether a mantissa of one digit gets a fraction. -/
  mantissaFraction : Bool
  nanText : String
  infinityText : String
  zeroText : String

namespace NumberStyle

/-- A positive decimal without trailing zeros, written in the notation. -/
def write (f : NumberStyle) (d : Decimal) : String :=
  let (cs, place) := d.digits
  if -4 ≤ place ∧ place < f.limit then
    let text := d.positional
    if f.fraction && decide (0 ≤ d.exponent) then text ++ ".0" else text
  else
    let mantissa := match cs with
      | [] => ""
      | [c] => c.toString ++ (if f.mantissaFraction then ".0" else "")
      | c :: rest => String.ofList (c :: '.' :: rest)
    let es := decimalDigits place.natAbs
    mantissa ++ f.mark ++ (if place < 0 then "-" else "+") ++
      String.ofList (List.replicate (f.width - es.length) '0' ++ es)

/-- Sign and special values around `body`, which writes a positive finite double. -/
def around (f : NumberStyle) (body : Nat → Int → String) : Double → String
  | .nan => f.nanText
  | .infinite s => (if s then "-" else "") ++ f.infinityText
  | .finite s m e =>
    (if s then "-" else "") ++ (if m = 0 then f.zeroText else body m e)

/-- Tree dumps show doubles with the fewest digits that read back, positional below `10 ^ 16`. -/
def dump : NumberStyle := ⟨16, true, "e", 2, false, "nan", "inf", "0.0"⟩

/-- Programs print doubles with 14 significant digits, positional below `10 ^ 14`. -/
def echo : NumberStyle := ⟨14, false, "E", 1, true, "NAN", "INF", "0"⟩

end NumberStyle

namespace Double

/-- The shortest text that reads back. -/
def display : Double → String :=
  NumberStyle.dump.around fun m e => NumberStyle.dump.write (Decimal.shortest m e)

/-- The text a program prints: 14 significant digits. -/
def text : Double → String :=
  NumberStyle.echo.around fun m e =>
    let (num, den) := unscale m 1 (-e)
    NumberStyle.echo.write (Decimal.significant 14 num den).normalize

end Double

end PhpInterpreter
