import PhpInterpreter.Machine

/-!
Places that are written: slots, array elements, which are made on the way, and characters of
strings.
-/

namespace PhpInterpreter

/-- One subscript of a place to be written, with its key; none appends. -/
structure Level where
  place : Place
  byref : Bool
  key? : Option Key
deriving Inhabited

namespace Run

/-- The name of a variable node. -/
def variableName (name : Datum) : Run String :=
  match name with
  | .node _ => fatal .variableVariable
  | .scalar (.string s) =>
    if s = "" ∨ s = "$" then breach .namelessVariable
    else pure (if s.toList.head? == some '$' then String.ofList (s.toList.drop 1) else s)
  | _ => breach .namelessVariable

/-- The element of an array at `l`; one that is missing is made, with null. -/
def element (t : Table Value) (l : Location) (key? : Option Key) : Run Location :=
  match key? with
  | none => do
    let child := l.child (.int t.next)
    store child .null
    return child
  | some k => do
    let child := l.child k
    if !t.contains k then store child .null
    return child

/-- The character of the string at `l`; negative offsets count from the end. -/
def character (level : Level) (l : Location) (s : String) : Run Location := do
  if level.byref then fatal .referenceToCharacter
  else
    match level.key? with
    | none => fatal .appendToString
    | some key =>
      let offset ← match key with
        | .int n => pure n
        | .str k => do
          noting level.place.line false (Noting.remark (.illegalStringOffset k))
          pure 0
      let position := if offset < 0 then offset + s.toList.length else offset
      if position < 0 then
        noting level.place.line false
          (Noting.mention false ((integerText offset).map .offsetBeforeStart))
      return l.atChar position

/-- One level down from a location. Null becomes an array; a scalar is remarked on and leads
nowhere. -/
def descend (level : Level) (l? : Option Location) : Run (Option Location) :=
  match l? with
  | none => pure none
  | some l =>
    if l.char?.isSome then fatal .characterAsArray
    else do
      match ← load l with
      | .undefined | .null =>
        store l (.array .empty)
        return some (← element .empty l level.key?)
      | .array t => return some (← element t l level.key?)
      | .bool _ | .number _ =>
        noting level.place.line false (Noting.remark .scalarAsArray)
        return none
      | .string s => return some (← character level l s)
      | .object _ c => fatal (.objectAsArray c)

/-- The location under several levels; an error is placed at its level. -/
def descendAll : List Level → Option Location → Run (Option Location)
  | [], l? => pure l?
  | level :: rest, l? => do
    let l? ← located level.place (descend level l?)
    descendAll rest l?

/-- The string with a character written at an offset; spaces fill the gap before it. -/
def writeAt (s : List Char) (offset : Nat) (c : Char) : List Char :=
  s.take offset ++ List.replicate (offset - s.length) ' ' ++ c :: s.drop (offset + 1)

/-- Writes the first character of a value's text into the string at `l`. No text is as long as an
offset past the largest integer asks for; what memory holds is not bounded here. -/
def writeCharacter (line : Json) (l : Location) (offset : Int) (value : Value) : Run Value := do
  if offset < 0 then return .null
  else
    match ← load l.container with
    | .string s =>
      let text ← noting line false value.toText
      match text.toList with
      | [] => fatal .emptyCharacter
      | c :: more =>
        if !more.isEmpty then noting line false (Noting.remark .onlyFirstCharacter)
        if maxInt < offset then crash .outOfRange
        else
          store l.container (.string (String.ofList (writeAt s.toList offset.toNat c)))
          return .string c.toString
    | _ => breach .characterOfNoString

/-- Writes a value to a location; the result is what the assignment yields. -/
def writeTo (line : Json) (l? : Option Location) (value : Value) : Run View :=
  match l? with
  | none => pure (.fresh .null)
  | some l =>
    match l.char? with
    | some offset => do return .fresh (← writeCharacter line l offset value)
    | none => do
      store l value
      return ⟨value, some l⟩

/-- The view under several levels, without making or remarking on anything. -/
def peekAll : List Level → View → Run View
  | [], v => pure v
  | level :: rest, v =>
    match level.key? with
    | none => fatal .appendRead
    | some k =>
      match v.value with
      | .array t =>
        match t.get? k with
        | some w => peekAll rest ⟨w, v.home?.map (·.child k)⟩
        | none => peekAll rest (.fresh .undefined)
      | .string s => do
        let c ← noting level.place.line true (Value.charAt true s k)
        peekAll rest (.fresh c)
      | .object _ c => fatal (.objectAsArray c)
      | _ => peekAll rest (.fresh .undefined)

end Run

end PhpInterpreter
