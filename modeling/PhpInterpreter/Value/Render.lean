import PhpInterpreter.Text.StringLiteral
import PhpInterpreter.Value.Convert

/-!
Texts of values: the display form on one line, and the rendering of the shell, one entry a line.
-/

namespace PhpInterpreter

/-- Integer keys as numbers, string keys as literals. -/
def Key.display : Key → String
  | .int n => decimalText n
  | .str s => StringLiteral.encodeSingle s

namespace Value

/-- An object shows its class and handle. -/
def displayObject (handle : Int) (className : String) : String :=
  "object(" ++ className ++ ")#" ++ decimalText handle

mutual

/-- The display form of a value. -/
def display : Value → String
  | undefined => "undefined"
  | null => "NULL"
  | bool b => if b then "true" else "false"
  | number n => n.display
  | string s => StringLiteral.encodeSingle s
  | array ⟨entries, _⟩ => "[" ++ Text.join ", " (displayEntries entries) ++ "]"
  | object h c => displayObject h c

def displayEntries : List (Key × Value) → List String
  | [] => []
  | (k, v) :: rest => (k.display ++ " => " ++ display v) :: displayEntries rest

end

/-- A number as rendered: a double that would look like an integer gets a fraction. -/
def renderNumber : Number → String
  | .int n => decimalText n
  | .float x =>
    let text := x.text
    let digits := text.toList.dropWhile (· == '-')
    if !digits.isEmpty && digits.all Char.isDigit then text ++ ".0" else text

mutual

/-- The rendering of a value whose lines are indented by `indent` columns. -/
def render : Value → Int → String
  | undefined, _ => "NULL"
  | null, _ => "NULL"
  | bool b, _ => if b then "true" else "false"
  | number n, _ => renderNumber n
  | string s, _ => StringLiteral.encodeSingle s
  | array ⟨entries, _⟩, indent =>
    "array (\n" ++ renderEntries entries indent ++ Text.spaces indent.toNat ++ ")"
  | object h c, _ => displayObject h c

def renderEntries : List (Key × Value) → Int → String
  | [], _ => ""
  | (k, v) :: rest, indent =>
    Text.spaces indent.toNat ++ "  " ++ k.display ++ " => " ++ render v (indent + 2) ++ ",\n" ++
      renderEntries rest indent

end

end Value

namespace Location

/-- A tuple of display forms: a single one keeps a comma. -/
def displayPath (path : List Key) : String :=
  let shown := path.map fun
    | .int n => decimalText n
    | .str s => Text.display s
  match shown with
  | [s] => "(" ++ s ++ ",)"
  | _ => "(" ++ Text.join ", " shown ++ ")"

/-- The display form of a location. -/
def display (l : Location) : String :=
  "Location(env=" ++ decimalText l.scope ++ ", slot=" ++ decimalText l.slot ++ ", path=" ++
    displayPath l.path ++ ", char_offset=" ++
    (match l.char? with | some n => decimalText n | none => "None") ++ ")"

end Location

end PhpInterpreter
