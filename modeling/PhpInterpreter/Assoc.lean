/-!
Association lists in insertion order: a new key goes last, a known key keeps its place.
-/

namespace PhpInterpreter.Assoc

variable {κ α β : Type} [DecidableEq κ]

def get? (key : κ) : List (κ × α) → Option α
  | [] => none
  | (k, v) :: rest => if k = key then some v else get? key rest

def contains (key : κ) (entries : List (κ × α)) : Bool := (get? key entries).isSome

/-- Replaces the value of a known key in place, or adds the key at the end. -/
def insert (key : κ) (value : α) : List (κ × α) → List (κ × α)
  | [] => [(key, value)]
  | (k, v) :: rest => if k = key then (k, value) :: rest else (k, v) :: insert key value rest

/-- Applies `f` to the value of `key`, if there is one. -/
def modify (key : κ) (f : α → α) : List (κ × α) → List (κ × α)
  | [] => []
  | (k, v) :: rest => if k = key then (k, f v) :: rest else (k, v) :: modify key f rest

def erase (key : κ) : List (κ × α) → List (κ × α)
  | [] => []
  | (k, v) :: rest => if k = key then rest else (k, v) :: erase key rest

def keys (entries : List (κ × α)) : List κ := entries.map (·.1)

@[simp] theorem get?_nil (key : κ) : get? key ([] : List (κ × α)) = none := rfl

theorem get?_insert (key k : κ) (value : α) (entries : List (κ × α)) :
    get? k (insert key value entries) = if key = k then some value else get? k entries := by
  induction entries with
  | nil => rfl
  | cons e rest ih => grind [insert, get?]

theorem keys_insert (key : κ) (value : α) (entries : List (κ × α)) :
    keys (insert key value entries) =
      if contains key entries then keys entries else keys entries ++ [key] := by
  induction entries with
  | nil => simp [insert, keys, contains]
  | cons e rest ih => grind [insert, keys, contains, get?]

end PhpInterpreter.Assoc
