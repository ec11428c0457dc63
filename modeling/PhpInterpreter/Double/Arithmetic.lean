import PhpInterpreter.Double.Basic

/-!
Arithmetic on doubles.
-/

namespace PhpInterpreter.Double

def neg : Double → Double
  | finite s m e => finite (!s) m e
  | infinite s => infinite (!s)
  | nan => nan

/-- A zero sum is negative only if both terms are. -/
def add : Double → Double → Double
  | finite s m e, finite t n f =>
    ofExact (Exact.add ⟨if s then -(m : Int) else m, e⟩ ⟨if t then -(n : Int) else n, f⟩) (s && t)
  | infinite s, infinite t => if s == t then infinite s else nan
  | infinite s, finite .. => infinite s
  | finite .., infinite t => infinite t
  | nan, _ => nan
  | _, nan => nan

def sub (x y : Double) : Double := add x (neg y)

def mul : Double → Double → Double
  | finite s m e, finite t n f =>
    ofQuotient (s != t) (unscale (m * n) 1 (-(e + f))).1 (unscale (m * n) 1 (-(e + f))).2
  | infinite s, infinite t => infinite (s != t)
  | infinite s, finite t n _ => if n = 0 then nan else infinite (s != t)
  | finite s m _, infinite t => if m = 0 then nan else infinite (s != t)
  | nan, _ => nan
  | _, nan => nan

def div : Double → Double → Double
  | finite s m e, finite t n f =>
    if n = 0 then
      if m = 0 then nan else infinite (s != t)
    else
      ofQuotient (s != t) (unscale m n (f - e)).1 (unscale m n (f - e)).2
  | infinite _, infinite _ => nan
  | infinite s, finite t _ _ => infinite (s != t)
  | finite s _ _, infinite t => finite (s != t) 0 (-1074)
  | nan, _ => nan
  | _, nan => nan

/-- Whether a double is an odd integer. -/
def isOdd (x : Double) : Bool := x.isInteger && x.truncate % 2 != 0

/-- The magnitude compared with one. -/
def cmpMagnitudeOne : Double → Ordering
  | finite _ m e => Exact.cmp ⟨m, e⟩ ⟨1, 0⟩
  | _ => .gt

/-- Whether `b ^ n` is past the largest double. A base of two or more is past it from the exponent
1024 on, so only smaller powers are computed. -/
def powerOverflows (b n : Nat) : Bool :=
  if b < 2 then false
  else if 1024 ≤ n then true
  else !(ofInt (Nat.pow b n)).isFinite

/-- The platform's power function, used for finite operands. -/
def platformPower (x y : Double) : Double :=
  ofBits ((Float.ofBits x.toBits.toUInt64).pow (Float.ofBits y.toBits.toUInt64)).toBits.toNat

/-- How raising to a power can fail. -/
inductive PowerFault
  | range
  | domain
deriving DecidableEq

/-- `x` to the power `y`. Finite operands whose power is too large are out of range; a negative
power of zero and a fractional power of a negative number are out of the domain. -/
def power (x y : Double) : Except PowerFault Double :=
  match x, y with
  | nan, _ => .ok (if y.isZero then one else nan)
  | finite s m e, nan =>
    .ok (if finite s m e == one then one else nan)
  | infinite _, nan => .ok nan
  | infinite s, _ =>
    if y.isZero then .ok one
    else if y.isNegative then .ok (finite (s && y.isOdd) 0 (-1074))
    else .ok (infinite (s && y.isOdd))
  | finite .., infinite t =>
    match cmpMagnitudeOne x with
    | .eq => .ok one
    | .gt => .ok (if t then zero else infinite false)
    | .lt => .ok (if t then infinite false else zero)
  | finite .., finite t _ _ =>
    if x.isInteger && y.isInteger && !t && powerOverflows x.truncate.natAbs y.truncate.natAbs then
      .error .range
    else
      match platformPower x y with
      | nan => .error .domain
      | infinite _ => .error (if x.isZero then .domain else .range)
      | r => .ok r

end PhpInterpreter.Double
