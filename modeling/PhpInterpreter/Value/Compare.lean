import PhpInterpreter.Value.Convert

/-!
Loose comparison, which converts, and identity, which does not.
-/

namespace PhpInterpreter

/-- The sign of an order. -/
def signOf : Ordering → Int
  | .lt => -1
  | .eq => 0
  | .gt => 1

namespace Number

/-- The order of two numbers as a sign; not-a-number is above everything. -/
def compare (x y : Number) : Int :=
  match x.cmp? y with
  | some o => signOf o
  | none => 1

end Number

namespace Value

/-- Numeric strings compare as numbers, others by code points. -/
def compareStrings (s t : String) : Except Crash Int := do
  match ← wholeNumber? s with
  | none => return signOf (Text.compareChars s.toList t.toList)
  | some x =>
    match ← wholeNumber? t with
    | none => return signOf (Text.compareChars s.toList t.toList)
    | some y => return x.compare y

/-- A number and a string compare as numbers if the string is numeric, else as texts. -/
def compareNumberString (x : Number) (s : String) : Except Crash Int := do
  match ← wholeNumber? s with
  | some y => return x.compare y
  | none => compareStrings (← x.text) s

/-- The same with the string on the left. -/
def compareStringNumber (s : String) (y : Number) : Except Crash Int := do
  match ← wholeNumber? s with
  | some x => return x.compare y
  | none => compareStrings s (← y.text)

/-- The order of two booleans as a sign. -/
def compareBools (a b : Bool) : Int :=
  (if a then 1 else 0) - (if b then 1 else 0)

mutual

/-- The loose order of two values as a sign. Arrays compare by size, then entry by entry in the
order of the left one; a key missing on the right makes the left one greater. -/
def compare : Value → Value → Except Crash Int
  | undefined, b => compareNull b
  | null, b => compareNull b
  | bool x, b => .ok (compareBools x b.toBool)
  | number x, b =>
    match b with
    | undefined | null => .ok (compareBools (toBool (number x)) false)
    | bool y => .ok (compareBools (toBool (number x)) y)
    | number y => .ok (x.compare y)
    | string s => compareNumberString x s
    | array _ => .ok (-1)
    | object .. => .ok (-1)
  | string s, b =>
    match b with
    | undefined | null => compareStrings s ""
    | bool y => .ok (compareBools (toBool (string s)) y)
    | number y => compareStringNumber s y
    | string t => compareStrings s t
    | array _ => .ok (-1)
    | object .. => .ok (-1)
  | array ⟨entries, _⟩, b =>
    match b with
    | undefined | null => .ok (compareBools (!entries.isEmpty) false)
    | bool y => .ok (compareBools (!entries.isEmpty) y)
    | array u =>
      if entries.length = u.size then compareEntries entries u
      else .ok (if entries.length < u.size then -1 else 1)
    | _ => .ok 1
  | object h _, b =>
    match b with
    | undefined | null => .ok 1
    | bool y => .ok (compareBools true y)
    | array _ => .ok (-1)
    | object k _ => .ok (if h = k then 0 else 1)
    | _ => .ok 1

/-- The order of null and a value: null is the empty text for strings, false for the rest. -/
def compareNull : Value → Except Crash Int
  | string s => compareStrings "" s
  | b => .ok (compareBools false b.toBool)

def compareEntries : List (Key × Value) → Table Value → Except Crash Int
  | [], _ => .ok 0
  | (k, v) :: rest, u =>
    match u.get? k with
    | none => .ok 1
    | some w => do
      let c ← compare v w
      if c = 0 then compareEntries rest u else return c

end

def looselyEquals (a b : Value) : Except Crash Bool := do
  return (← compare a b) == 0

mutual

/-- Identity: the same type and content, for arrays the same keys in the same order. An object
whose class has the name of a built-in type has no content to compare with such a value. -/
def identical : Value → Value → Except Crash Bool
  | array ⟨entries, _⟩, b =>
    match b with
    | array u =>
      if Assoc.keys entries = u.keys then identicalEntries entries u.entries else .ok false
    | _ => otherTypes "array" b.typeName
  | undefined, b => identicalNull b
  | null, b => identicalNull b
  | object h c, b =>
    match b with
    | object k d => .ok (c == d && h == k)
    | _ => otherTypes c b.typeName
  | bool x, b =>
    match b with
    | bool y => .ok (x == y)
    | _ => otherTypes "bool" b.typeName
  | number x, b =>
    match b with
    | number y =>
      if (number x).typeName = (number y).typeName then .ok (x.cmp? y == some .eq) else .ok false
    | _ => otherTypes (number x).typeName b.typeName
  | string s, b =>
    match b with
    | string t => .ok (s == t)
    | _ => otherTypes "string" b.typeName

def identicalNull : Value → Except Crash Bool
  | undefined | null => .ok true
  | b => otherTypes "null" b.typeName

/-- Values of different shape differ, unless their type names agree by accident. -/
def otherTypes (a b : String) : Except Crash Bool :=
  if a = b then .error .incomparable else .ok false

def identicalEntries : List (Key × Value) → List (Key × Value) → Except Crash Bool
  | (_, v) :: rest, (_, w) :: rest' => do
    if ← identical v w then identicalEntries rest rest' else return false
  | _, _ => .ok true

end

end Value

end PhpInterpreter
