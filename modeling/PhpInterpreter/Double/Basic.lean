/-!
Double-precision numbers as exact values. A finite double is `± mantissa * 2 ^ exponent`; results
are computed exactly and rounded once, to the nearest double, a tie going to the even mantissa.
-/

namespace PhpInterpreter

/-- A double: the canonical finite values have `mantissa < 2 ^ 53`, `-1074 ≤ exponent ≤ 971`, and
`2 ^ 52 ≤ mantissa` unless `exponent = -1074`. -/
inductive Double
  | finite (negative : Bool) (mantissa : Nat) (exponent : Int)
  | infinite (negative : Bool)
  | nan
deriving DecidableEq, Inhabited

/-- An exact value `numerator * 2 ^ exponent`. -/
structure Exact where
  numerator : Int
  exponent : Int
deriving DecidableEq, Inhabited

namespace Exact

/-- The numerator over `2 ^ exponent`, for an exponent not above the own one. -/
def scaledTo (x : Exact) (exponent : Int) : Int :=
  x.numerator * (1 <<< (x.exponent - exponent).toNat : Nat)

/-- The order of two exact values. -/
def cmp (x y : Exact) : Ordering :=
  let e := min x.exponent y.exponent
  if x.scaledTo e < y.scaledTo e then .lt else if y.scaledTo e < x.scaledTo e then .gt else .eq

def add (x y : Exact) : Exact :=
  let e := min x.exponent y.exponent
  ⟨x.scaledTo e + y.scaledTo e, e⟩

def ofInt (n : Int) : Exact := ⟨n, 0⟩

end Exact

/-- `num / den` rounded to a natural number, a half going to the even neighbour. -/
def roundHalfEven (num den : Nat) : Nat :=
  let q := num / den
  let r := num % den
  if 2 * r < den then q
  else if den < 2 * r then q + 1
  else if q % 2 = 0 then q else q + 1

/-- `num / den` divided by `2 ^ exponent`, again as numerator and denominator. -/
def unscale (num den : Nat) (exponent : Int) : Nat × Nat :=
  if 0 ≤ exponent then (num, den <<< exponent.toNat) else (num <<< (-exponent).toNat, den)

namespace Double

/-- The exponent that gives the quotient of two positive numbers a mantissa of 53 bits. -/
def leadingExponent (num den : Nat) : Int :=
  let e : Int := (num.log2 : Int) - den.log2 - 52
  let (n, d) := unscale num den e
  if n < d <<< 52 then e - 1 else e

/-- A rounded mantissa may have grown to `2 ^ 53`; a value past the largest double is infinite. -/
def pack (negative : Bool) (mantissa : Nat) (exponent : Int) : Double :=
  if mantissa < 0x20000000000000 then
    if 971 < exponent then infinite negative else finite negative mantissa exponent
  else
    if 971 < exponent + 1 then infinite negative else finite negative (mantissa / 2) (exponent + 1)

/-- The double nearest to `± num / den`, for a positive `den`. -/
def ofQuotient (negative : Bool) (num den : Nat) : Double :=
  if num = 0 then finite negative 0 (-1074)
  else
    let e := max (leadingExponent num den) (-1074)
    let (n, d) := unscale num den e
    pack negative (roundHalfEven n d) e

/-- The double nearest to an exact value; `negativeZero` is the sign given to zero. -/
def ofExact (x : Exact) (negativeZero : Bool) : Double :=
  if x.numerator = 0 then finite negativeZero 0 (-1074)
  else if 0 ≤ x.exponent then
    ofQuotient (decide (x.numerator < 0)) (x.numerator.natAbs <<< x.exponent.toNat) 1
  else
    ofQuotient (decide (x.numerator < 0)) x.numerator.natAbs (1 <<< (-x.exponent).toNat)

/-- The double nearest to an integer, infinite past the range. -/
def ofInt (n : Int) : Double := ofQuotient (decide (n < 0)) n.natAbs 1

/-- The double nearest to an integer, if it is finite. -/
def ofInt? (n : Int) : Option Double :=
  match ofInt n with
  | finite s m e => some (finite s m e)
  | _ => none

def zero : Double := finite false 0 (-1074)

def one : Double := finite false 0x10000000000000 (-52)

def isFinite : Double → Bool
  | finite .. => true
  | _ => false

/-- Zero of either sign. -/
def isZero : Double → Bool
  | finite _ m _ => m == 0
  | _ => false

/-- The sign; not-a-number counts as positive. -/
def isNegative : Double → Bool
  | finite s _ _ => s
  | infinite s => s
  | nan => false

/-- The integer part, cut toward zero; zero for what is not finite. -/
def truncate : Double → Int
  | finite s m e =>
    let n : Nat := if 0 ≤ e then m <<< e.toNat else m >>> (-e).toNat
    if s then -(n : Int) else n
  | _ => 0

/-- Whether a finite double has no fractional part. -/
def isInteger : Double → Bool
  | finite _ m e => decide (0 ≤ e) || (m >>> (-e).toNat) <<< (-e).toNat == m
  | _ => false

/-- The order of a double and an exact value; not-a-number has none. -/
def cmpExact? : Double → Exact → Option Ordering
  | finite s m e, y => some (Exact.cmp ⟨if s then -(m : Int) else m, e⟩ y)
  | infinite s, _ => some (if s then .lt else .gt)
  | nan, _ => none

/-- The order of two doubles; not-a-number has none. -/
def cmp? : Double → Double → Option Ordering
  | x, finite s m e => cmpExact? x ⟨if s then -(m : Int) else m, e⟩
  | infinite s, infinite t =>
    some (if s == t then .eq else if s then .lt else .gt)
  | finite .., infinite t => some (if t then .gt else .lt)
  | nan, _ => none
  | _, nan => none

/-- Sixteen hexadecimal digits' worth of bits: sign, biased exponent, fraction. -/
def toBits : Double → Nat
  | finite s m e =>
    (if s then 0x8000000000000000 else 0) +
      (if m < 0x10000000000000 then m
       else (e + 1075).toNat * 0x10000000000000 + (m - 0x10000000000000))
  | infinite s => (if s then 0x8000000000000000 else 0) + 0x7ff0000000000000
  | nan => 0x7ff8000000000000

/-- The double with the given bits; every not-a-number is the same. -/
def ofBits (bits : Nat) : Double :=
  let s := decide (bits / 0x8000000000000000 % 2 = 1)
  let biased := bits / 0x10000000000000 % 0x800
  let fraction := bits % 0x10000000000000
  if biased = 0x7ff then
    if fraction = 0 then infinite s else nan
  else if biased = 0 then finite s fraction (-1074)
  else finite s (fraction + 0x10000000000000) ((biased : Int) - 1075)

end Double

end PhpInterpreter
