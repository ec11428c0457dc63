import PhpInterpreter.Number
import PhpInterpreter.Text.Quoted
import PhpInterpreter.Text.Blank

/-!
JSON values, objects with their members in order, and the display form of data.
-/

namespace PhpInterpreter

/-- Data without parts. -/
inductive Scalar
  | null
  | bool (b : Bool)
  | number (n : Number)
  | string (s : String)
deriving DecidableEq, Inhabited

inductive Json
  | scalar (value : Scalar)
  | list (items : List Json)
  | object (members : List (String × Json))
deriving Inhabited

namespace Scalar

/-- The display form: texts in quotes. -/
def display : Scalar → String
  | null => "None"
  | bool true => "True"
  | bool false => "False"
  | number (.int n) => decimalText n
  | number (.float x) => x.display
  | string s => Text.display s

/-- The display form, texts as they are. -/
def shown : Scalar → String
  | string s => s
  | v => v.display

/-- Null, false, zero and the empty text are not truthy. -/
def truthy : Scalar → Bool
  | null => false
  | bool b => b
  | number n => !n.isZero
  | string s => s != ""

/-- The number a scalar counts as when it is compared: booleans count as zero and one. -/
def number? : Scalar → Option Number
  | bool b => some (.int (if b then 1 else 0))
  | number n => some n
  | _ => none

/-- Equality of data: numbers by value, booleans as numbers, not-a-number equal to itself. -/
def same (x y : Scalar) : Bool :=
  match x, y with
  | null, null => true
  | string s, string t => s == t
  | number (.float .nan), number (.float .nan) => true
  | x, y =>
    match x.number?, y.number? with
    | some a, some b => a.cmp? b == some .eq
    | _, _ => false

end Scalar

namespace Json

def null : Json := scalar .null

def isNull : Json → Bool
  | scalar .null => true
  | _ => false

mutual

/-- The display form of a JSON value. -/
def display : Json → String
  | scalar v => v.display
  | list items => "[" ++ Text.join ", " (displayItems items) ++ "]"
  | object members => "\x7b" ++ Text.join ", " (displayMembers members) ++ "\x7d"

def displayItems : List Json → List String
  | [] => []
  | v :: rest => display v :: displayItems rest

def displayMembers : List (String × Json) → List String
  | [] => []
  | (k, v) :: rest => (Text.display k ++ ": " ++ display v) :: displayMembers rest

end

/-- The display form, a text as it is. -/
def shown : Json → String
  | scalar v => v.shown
  | v => v.display

mutual

/-- Equality of data: objects regardless of the order of their members. -/
def same : Json → Json → Bool
  | scalar x, scalar y => x.same y
  | list xs, list ys => sameItems xs ys
  | object xs, object ys => xs.length == ys.length && sameMembers xs ys
  | _, _ => false

def sameItems : List Json → List Json → Bool
  | [], [] => true
  | x :: xs, y :: ys => same x y && sameItems xs ys
  | _, _ => false

/-- Whether every member on the left has an equal one of the same name on the right. -/
def sameMembers : List (String × Json) → List (String × Json) → Bool
  | [], _ => true
  | (k, v) :: rest, members =>
    (match members.find? (fun m => m.1 == k) with
      | some m => same v m.2
      | none => false) && sameMembers rest members

end

/-- Null, false, zero, and everything empty are not truthy. -/
def truthy : Json → Bool
  | scalar v => v.truthy
  | list items => !items.isEmpty
  | object members => !members.isEmpty

end Json

end PhpInterpreter
