import PhpInterpreter.Number.Numeral

/-!
Conversions: to booleans, numbers, texts and array keys.
-/

namespace PhpInterpreter

namespace Key

/-- Digits of a canonical decimal: zero, or no leading zero. -/
def canonicalDigits : List Char → Bool
  | ['0'] => true
  | c :: cs => c != '0' && (c :: cs).all Char.isDigit
  | [] => false

/-- The text of a canonical decimal integer: no sign but a minus, no leading zero, and at most a
line feed after it. -/
def canonicalBody? (cs : List Char) : Option (Bool × List Char) :=
  let cs := if cs.getLast? == some '\n' then cs.dropLast else cs
  let (negative, ds) := match cs with
    | '-' :: ds => (true, ds)
    | ds => (false, ds)
  if canonicalDigits ds then some (negative, ds) else none

/-- A string that is a canonical decimal integer of 64 bits addresses the integer key. -/
def ofString (s : String) : Except Crash Key :=
  match canonicalBody? s.toList with
  | none => .ok (.str s)
  | some (negative, ds) =>
    if Numeral.digitLimit < ds.length then .error .digitLimit
    else
      let m : Int := Text.ofDigits 10 (ds.map fun c => c.toNat - 48)
      let n := if negative then -m else m
      .ok (if fits n then .int n else .str s)

end Key

namespace Value

/-- A crash of a pure computation stops a noting one. -/
def lift {α : Type} : Except Crash α → Noting α
  | .ok a => pure a
  | .error c => Noting.crash c

/-- The key a value addresses. What cannot be a key is remarked on and addresses the empty
string. -/
def toKey : Value → Noting Key
  | undefined => pure (.str "")
  | bool b => pure (.int (if b then 1 else 0))
  | number n => pure (.int n.truncate)
  | string s =>
    match Key.ofString s with
    | .ok k => pure k
    | .error c => Noting.crash c
  | v => do
    Noting.remark (.illegalOffsetType v.typeName)
    return .str ""

def toBool : Value → Bool
  | undefined | null => false
  | bool b => b
  | number n => !n.isZero
  | string s => s != "" && s != "0"
  | array t => !t.entries.isEmpty
  | object .. => true

/-- The number a value counts as; strings count by their numeric prefix. -/
def toNumber : Value → Noting Number
  | undefined | null => pure (.int 0)
  | bool b => pure (.int (if b then 1 else 0))
  | number n => pure n
  | string s =>
    match readNumeric s with
    | .error c => Noting.crash c
    | .ok .absent => do
      Noting.remark .notNumeric
      return .int 0
    | .ok (.found n true) => pure n
    | .ok (.found n false) => do
      Noting.remark .trailingData
      return n
  | array t => pure (.int (if t.entries.isEmpty then 0 else 1))
  | object .. => pure (.int 1)

/-- The text of a value. -/
def toText : Value → Noting String
  | undefined | null => pure ""
  | bool b => pure (if b then "1" else "")
  | number n => lift n.text
  | string s => pure s
  | array _ => do
    Noting.remark .arrayToString
    return "Array"
  | object _ c => Noting.fatal (.objectToString c)

end Value

end PhpInterpreter
