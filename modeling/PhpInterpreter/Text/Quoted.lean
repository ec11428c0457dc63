import PhpInterpreter.Text.Printable

/-!
Display form of a text: in quotes, with what cannot be shown written as an escape.
-/

namespace PhpInterpreter.Text

/-- Lower-case hexadecimal digits of `n`, at least `width` of them. -/
def hex (width n : Nat) : String :=
  let digits := Nat.toDigits 16 n
  String.ofList (List.replicate (width - digits.length) '0' ++ digits)

/-- A character inside a display form delimited by `quote`. -/
def displayChar (quote : Char) (c : Char) : String :=
  if c == quote || c == '\\' then String.ofList ['\\', c]
  else if c == '\n' then "\\n"
  else if c == '\r' then "\\r"
  else if c == '\t' then "\\t"
  else if isPrintable c then c.toString
  else if c.toNat < 0x100 then "\\x" ++ hex 2 c.toNat
  else if c.toNat < 0x10000 then "\\u" ++ hex 4 c.toNat
  else "\\U" ++ hex 8 c.toNat

/-- Single quotes delimit the text, unless it has a single quote and no double quote. -/
def displayQuote (s : String) : Char :=
  if s.toList.contains '\x27' && !s.toList.contains '\x22' then '\x22' else '\x27'

/-- The display form of `s`. -/
def display (s : String) : String :=
  let q := displayQuote s
  q.toString ++ String.join (s.toList.map (displayChar q)) ++ q.toString

end PhpInterpreter.Text
