import PhpInterpreter.Double.Arithmetic
import PhpInterpreter.Double.Decimal

/-!
Numbers of the language: integers, which leave for the doubles past 64 bits, and doubles.
-/

namespace PhpInterpreter

inductive Number
  | int (n : Int)
  | float (x : Double)
deriving DecidableEq, Inhabited

/-- The largest and the smallest 64-bit integer. -/
def maxInt : Int := 9223372036854775807

def minInt : Int := -9223372036854775808

def fits (n : Int) : Bool := decide (minInt ≤ n) && decide (n ≤ maxInt)

namespace Number

/-- Integers out of 64 bits become the nearest double, infinite past the doubles. -/
def fit : Number → Number
  | int n => if fits n then int n else float (Double.ofInt n)
  | float x => float x

/-- The nearest double, unless it is infinite. -/
def toDouble? : Number → Option Double
  | int n => Double.ofInt? n
  | float x => some x

/-- Exact on two integers, else on doubles; none if an integer operand is past the doubles. -/
def combine (onInt : Int → Int → Int) (onDouble : Double → Double → Double) :
    Number → Number → Option Number
  | int m, int n => some (int (onInt m n))
  | x, y => do
    let a ← x.toDouble?
    let b ← y.toDouble?
    return float (onDouble a b)

def add : Number → Number → Option Number := combine (· + ·) Double.add

def sub : Number → Number → Option Number := combine (· - ·) Double.sub

def mul : Number → Number → Option Number := combine (· * ·) Double.mul

def neg : Number → Number
  | int n => int (-n)
  | float x => float x.neg

def isZero : Number → Bool
  | int n => n == 0
  | float x => x.isZero

/-- Below zero; a negative zero and not-a-number are not. -/
def isNegative : Number → Bool
  | int n => decide (n < 0)
  | float x => x.isNegative && !x.isZero

/-- The quotient by a number that is not zero: an integer if two integers divide exactly, else a
double. None if an integer operand or the quotient of two integers is past the doubles. -/
def div : Number → Number → Option Number
  | int m, int n =>
    if Int.emod m n = 0 then some (fit (int (Int.tdiv m n)))
    else
      match Double.ofQuotient (decide (m < 0) != decide (n < 0)) m.natAbs n.natAbs with
      | .infinite _ => none
      | q => some (float q)
  | x, y => do
    let a ← x.toDouble?
    let b ← y.toDouble?
    return float (Double.div a b)

/-- The integer part, cut toward zero; zero for infinities and not-a-number. -/
def truncate : Number → Int
  | int n => n
  | float x => x.truncate

/-- The remainder of the integer parts, with the sign of the dividend, by a divisor whose integer
part is not zero. -/
def mod (x y : Number) : Int := Int.tmod x.truncate y.truncate

/-- An integer power, kept in range: a base of at least two is past the doubles from exponent
1024 on. -/
def intPower (b : Int) (n : Nat) : Number :=
  if 2 ≤ b.natAbs ∧ 1024 ≤ n then float (.infinite (decide (b < 0) && n % 2 == 1))
  else if b.natAbs < 2 then int (if n = 0 then 1 else if n % 2 = 0 then b.natAbs else b)
  else
    let m : Int := (Nat.pow b.natAbs n : Nat)
    fit (int (if b < 0 ∧ n % 2 = 1 then -m else m))

/-- The power of doubles: infinite when out of range, not-a-number when out of the domain. -/
def doublePower (x y : Double) : Double :=
  match Double.power x y with
  | .ok r => r
  | .error .range => .infinite false
  | .error .domain => .nan

/-- Two integers with an exponent that is not negative give an integer power; a negative power of
zero is infinite, and so is one with an operand past the doubles. -/
def power (x y : Number) : Number :=
  match x, y with
  | int b, int (.ofNat n) => intPower b n
  | _, _ =>
    if x.isZero && y.isNegative then float (.infinite false)
    else
      match x.toDouble?, y.toDouble? with
      | some a, some b => float (doublePower a b)
      | _, _ => float (.infinite false)

/-- The exact order of two numbers; not-a-number has none. -/
def cmp? : Number → Number → Option Ordering
  | int m, int n => some (Exact.cmp (Exact.ofInt m) (Exact.ofInt n))
  | float x, int n => x.cmpExact? (Exact.ofInt n)
  | int m, float y => (y.cmpExact? (Exact.ofInt m)).map Ordering.swap
  | float x, float y => x.cmp? y

/-- The text of a number in a value's display form: a double without fraction shows all its
digits and one decimal. -/
def display : Number → String
  | int n => decimalText n
  | float x =>
    if x.isInteger then
      (if x.isNegative then "-" else "") ++ String.ofList (decimalDigits x.truncate.natAbs) ++ ".0"
    else x.display

end Number

end PhpInterpreter
