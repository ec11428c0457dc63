/-!
Texts: parts, lines, order and case, and classes of characters.
-/

namespace PhpInterpreter.Text

/-- Puts `separator` between the texts. -/
def join (separator : String) (parts : List String) : String := separator.intercalate parts

/-- `n` copies of a text. -/
def repeated (s : String) (n : Nat) : String := String.join (List.replicate n s)

/-- `n` spaces. -/
def spaces (n : Nat) : String := String.ofList (List.replicate n ' ')

/-- Whether the text begins with this one. -/
def startsWith (start s : String) : Bool := start.toList.isPrefixOf s.toList

/-- Whether the text ends in this one. -/
def endsWith (ending s : String) : Bool := ending.toList.isSuffixOf s.toList

/-- A carriage return, alone or before a line feed, ends a line as a line feed does. -/
def unixLines : List Char → List Char
  | [] => []
  | '\r' :: '\n' :: rest => '\n' :: unixLines rest
  | c :: rest => (if c = '\r' then '\n' else c) :: unixLines rest

/-- What follows the last line feed. -/
def lastLine (cs : List Char) : List Char := (cs.reverse.takeWhile (· != '\n')).reverse

/-- Lower case for ASCII letters; other characters stay. -/
def lower (s : String) : String := String.ofList (s.toList.map Char.toLower)

/-- Upper case for the characters whose upper case is an ASCII letter: the ASCII letters, the long
s and the dotless i. -/
def upper (s : String) : String :=
  String.ofList (s.toList.map fun c => if c = 'ſ' then 'S' else if c = 'ı' then 'I' else c.toUpper)

/-- Order by code points. -/
def compareChars : List Char → List Char → Ordering
  | [], [] => .eq
  | [], _ :: _ => .lt
  | _ :: _, [] => .gt
  | a :: as, b :: bs =>
    if a.toNat < b.toNat then .lt else if b.toNat < a.toNat then .gt else compareChars as bs

/-- Whether `n` is in the class whose boundaries are listed in increasing order: the class starts
at the first boundary, ends before the second, and so on. -/
def inClass (boundaries : List Nat) (n : Nat) : Bool :=
  boundaries.countP (fun b => decide (b ≤ n)) % 2 == 1

end PhpInterpreter.Text
