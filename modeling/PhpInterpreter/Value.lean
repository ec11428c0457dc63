import PhpInterpreter.Assoc
import PhpInterpreter.Number
import PhpInterpreter.Text.Blank

/-!
Values of the language. An array is a table of entries in insertion order with a counter for the
next free integer key; an object is a handle.
-/

namespace PhpInterpreter

/-- Array keys. -/
inductive Key
  | int (n : Int)
  | str (s : String)
deriving DecidableEq, Inhabited

/-- Entries in insertion order and the key the next append takes. -/
structure Table (α : Type) where
  entries : List (Key × α)
  next : Int
deriving Inhabited

namespace Table

variable {α : Type}

def empty : Table α := ⟨[], 0⟩

def get? (t : Table α) (key : Key) : Option α := Assoc.get? key t.entries

def contains (t : Table α) (key : Key) : Bool := Assoc.contains key t.entries

def keys (t : Table α) : List Key := Assoc.keys t.entries

def size (t : Table α) : Nat := t.entries.length

/-- The append counter after a key was set: it moves past integer keys that reach it. -/
def nextAfter (next : Int) : Key → Int
  | .int n => if next ≤ n then n + 1 else next
  | .str _ => next

/-- Sets the value of a key, in place if it is known, else as the last entry. -/
def set (t : Table α) (key : Key) (value : α) : Table α :=
  ⟨Assoc.insert key value t.entries, nextAfter t.next key⟩

/-- Puts another value under a known key and leaves the counter alone. -/
def replace (t : Table α) (key : Key) (value : α) : Table α :=
  { t with entries := Assoc.modify key (fun _ => value) t.entries }

/-- Sets the value of the next free integer key. -/
def append (t : Table α) (value : α) : Table α := t.set (.int t.next) value

/-- The table of `pairs`, set one after the other; a missing key appends. -/
def ofPairs (pairs : List (Option Key × α)) : Table α :=
  pairs.foldl (fun t (key, v) => match key with
    | some k => t.set k v
    | none => t.append v) empty

/-- Keys of the left table win; the missing keys of the right one follow in their order. -/
def union (t u : Table α) : Table α :=
  u.entries.foldl (fun r (key, v) => if r.contains key then r else r.set key v) t

end Table

/-- Values, and `undefined`, the result of reading an unbound name or a missing character. -/
inductive Value
  | undefined
  | null
  | bool (b : Bool)
  | number (n : Number)
  | string (s : String)
  | array (table : Table Value)
  | object (handle : Int) (className : String)
deriving Inhabited

namespace Value

def int (n : Int) : Value := number (.int n)

def float (x : Double) : Value := number (.float x)

/-- Undefined counts as null wherever a value is stored or combined. -/
def defined : Value → Value
  | undefined => null
  | v => v

def isNull : Value → Bool
  | undefined | null => true
  | _ => false

/-- The name of a value's type in messages: an object's class names it. -/
def typeName : Value → String
  | undefined | null => "null"
  | bool _ => "bool"
  | number (.int _) => "int"
  | number (.float _) => "float"
  | string _ => "string"
  | array _ => "array"
  | object _ c => c

/-- The value under a key path; undefined where the path leaves the arrays. -/
def descend : Value → List Key → Value
  | v, [] => v
  | array t, k :: rest =>
    match t.get? k with
    | some v => v.descend rest
    | none => undefined
  | _, _ :: _ => undefined

/-- The value with `new` set under a key path; none if the path does not lead through arrays up
to its last key. -/
def setAt? : Value → List Key → Value → Option Value
  | _, [], new => some new
  | array t, [k], new => some (array (t.set k new))
  | array t, k :: rest, new => do
    let inner ← t.get? k
    let inner ← setAt? inner rest new
    return array (t.replace k inner)
  | _, _ :: _, _ => none

theorem descend_nil (v : Value) : v.descend [] = v := by rw [descend]

theorem setAt?_nil (v new : Value) : v.setAt? [] new = some new := by rw [setAt?]

end Value

/-- Where a value lives: the owning scope, the slot, the key path inside its array, and the
position of a character. -/
structure Location where
  scope : Int
  slot : Int
  path : List Key
  char? : Option Int
deriving DecidableEq, Inhabited

namespace Location

def child (l : Location) (key : Key) : Location := { l with path := l.path ++ [key] }

def atChar (l : Location) (offset : Int) : Location := { l with char? := some offset }

/-- The location without its character position. -/
def container (l : Location) : Location := { l with char? := none }

end Location

end PhpInterpreter
