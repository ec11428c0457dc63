import PhpInterpreter.Source.Parser

/-!
Reading source text: at each place the scanner tries only the terminals the parser accepts there,
besides space and comments.
-/

namespace PhpInterpreter.Source

/-- What stands at a place where no accepted terminal matches: the text of another terminal, or
a single character. -/
def unexpectedText (cs : List Char) : String :=
  match Terminal.first? (fun _ => true) cs with
  | some (_, n) => String.ofList (cs.take n)
  | none => String.ofList (cs.take 1)

/-- Why a text is not a program. -/
inductive ReadError
  | unexpected (text : String) (pos : Position)
  | unexpectedEnd (pos : Position)
deriving DecidableEq, Inhabited

/-- Reads the rest of a text. `here` is its position, `last` that of the last token. -/
def read (p : Parser) (here last : Position) : List Char → Except ReadError Parser
  | [] =>
    match p.finish? with
    | some _ => .ok p
    | none => .error (.unexpectedEnd last)
  | c :: rest =>
    match Terminal.first? (fun t => t.ignored || p.accepts t) (c :: rest) with
    | none => .error (.unexpected (unexpectedText (c :: rest)) here)
    | some (terminal, n) =>
      let text := (c :: rest).take n
      let after := here.advance text
      if terminal.ignored then read p after last (rest.drop (n - 1))
      else
        match p.feed ⟨terminal, String.ofList text, here⟩ with
        | none => .error (.unexpected (String.ofList text) here)
        | some p => read p after here (rest.drop (n - 1))
termination_by cs => cs.length
decreasing_by all_goals simp only [List.length_drop, List.length_cons]; omega

/-- Reads a program. -/
def parse (text : String) : Except ReadError Program :=
  match read .init .start .start text.toList with
  | .error e => .error e
  | .ok p => .ok (p.finish?.getD default)

end PhpInterpreter.Source
