import PhpInterpreter.Text.Basic

/-!
Blank characters and the texts around them.
-/

namespace PhpInterpreter.Text

/-- Blank characters of Unicode, the ASCII separators `\x1c` to `\x1f` included. -/
def isBlank (c : Char) : Bool :=
  let n := c.toNat
  (9 ≤ n && n ≤ 13) || (28 ≤ n && n ≤ 32) || n == 0x85 || n == 0xa0 || n == 0x1680 ||
    (0x2000 ≤ n && n ≤ 0x200a) || n == 0x2028 || n == 0x2029 || n == 0x202f || n == 0x205f ||
    n == 0x3000

/-- Space, tab, line feed, carriage return, vertical tab and form feed. -/
def isAsciiBlank (c : Char) : Bool :=
  let n := c.toNat
  n == 32 || (9 ≤ n && n ≤ 13)

/-- Drops the characters of a class from both ends. -/
def trimBy (p : Char → Bool) (cs : List Char) : List Char :=
  ((cs.dropWhile p).reverse.dropWhile p).reverse

/-- Drops blanks from both ends. -/
def trim (s : String) : String := String.ofList (trimBy isBlank s.toList)

/-- The first word of a text that starts with one, and what follows the blanks after it. -/
def splitWord (s : String) : String × String :=
  let cs := s.toList
  (String.ofList (cs.takeWhile (!isBlank ·)),
    String.ofList ((cs.dropWhile (!isBlank ·)).dropWhile isBlank))

end PhpInterpreter.Text
