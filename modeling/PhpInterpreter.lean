import PhpInterpreter.Assoc
import PhpInterpreter.Command
import PhpInterpreter.Console
import PhpInterpreter.Double.Arithmetic
import PhpInterpreter.Double.Basic
import PhpInterpreter.Double.Decimal
import PhpInterpreter.Environment
import PhpInterpreter.Fault
import PhpInterpreter.Folder
import PhpInterpreter.Json
import PhpInterpreter.Json.Reader
import PhpInterpreter.Machine
import PhpInterpreter.Machine.Eval
import PhpInterpreter.Machine.Place
import PhpInterpreter.Machine.Program
import PhpInterpreter.Main
import PhpInterpreter.Node
import PhpInterpreter.Node.Load
import PhpInterpreter.Node.Print
import PhpInterpreter.Node.Walk
import PhpInterpreter.Number
import PhpInterpreter.Number.Literal
import PhpInterpreter.Number.Numeral
import PhpInterpreter.Operator
import PhpInterpreter.Proofs.Assoc
import PhpInterpreter.Proofs.Machine.Agreement
import PhpInterpreter.Proofs.Machine.Assignment
import PhpInterpreter.Proofs.Machine.Blame
import PhpInterpreter.Proofs.Machine.Body
import PhpInterpreter.Proofs.Machine.Call
import PhpInterpreter.Proofs.Machine.Character
import PhpInterpreter.Proofs.Machine.Chunk
import PhpInterpreter.Proofs.Machine.Coalesce
import PhpInterpreter.Proofs.Machine.Discipline
import PhpInterpreter.Proofs.Machine.Effect
import PhpInterpreter.Proofs.Machine.Evaluation
import PhpInterpreter.Proofs.Machine.Expansion
import PhpInterpreter.Proofs.Machine.Failure
import PhpInterpreter.Proofs.Machine.Frame
import PhpInterpreter.Proofs.Machine.KeyRange
import PhpInterpreter.Proofs.Machine.Landing
import PhpInterpreter.Proofs.Machine.Leak
import PhpInterpreter.Proofs.Machine.Nested
import PhpInterpreter.Proofs.Machine.Notice
import PhpInterpreter.Proofs.Machine.Operand
import PhpInterpreter.Proofs.Machine.Parallel
import PhpInterpreter.Proofs.Machine.Peek
import PhpInterpreter.Proofs.Machine.Place
import PhpInterpreter.Proofs.Machine.Program
import PhpInterpreter.Proofs.Machine.Quiet
import PhpInterpreter.Proofs.Machine.Readback
import PhpInterpreter.Proofs.Machine.Reading
import PhpInterpreter.Proofs.Machine.Renumber
import PhpInterpreter.Proofs.Machine.Resolution
import PhpInterpreter.Proofs.Machine.Safety
import PhpInterpreter.Proofs.Machine.Seclusion
import PhpInterpreter.Proofs.Machine.Session
import PhpInterpreter.Proofs.Machine.Settling
import PhpInterpreter.Proofs.Machine.Sight
import PhpInterpreter.Proofs.Machine.Site
import PhpInterpreter.Proofs.Machine.Unplaced
import PhpInterpreter.Proofs.Machine.View
import PhpInterpreter.Proofs.Machine.Write
import PhpInterpreter.Proofs.Node.Interchange
import PhpInterpreter.Proofs.Node.Part
import PhpInterpreter.Proofs.Node.Preorder
import PhpInterpreter.Proofs.Node.Walk
import PhpInterpreter.Proofs.Outcome
import PhpInterpreter.Proofs.Scope.Activity
import PhpInterpreter.Proofs.Scope.Binding
import PhpInterpreter.Proofs.Scope.Bond
import PhpInterpreter.Proofs.Scope.Cell
import PhpInterpreter.Proofs.Scope.Change
import PhpInterpreter.Proofs.Scope.Contents
import PhpInterpreter.Proofs.Scope.History
import PhpInterpreter.Proofs.Scope.Isolation
import PhpInterpreter.Proofs.Scope.Linked
import PhpInterpreter.Proofs.Scope.Mirror
import PhpInterpreter.Proofs.Scope.Operation
import PhpInterpreter.Proofs.Scope.Payload
import PhpInterpreter.Proofs.Scope.Stranding
import PhpInterpreter.Proofs.Scope.Survival
import PhpInterpreter.Proofs.Scope.Sweep
import PhpInterpreter.Proofs.Shell.Submission
import PhpInterpreter.Proofs.Source.Chunk
import PhpInterpreter.Proofs.Source.Complete
import PhpInterpreter.Proofs.Source.DoubleQuoted
import PhpInterpreter.Proofs.Source.Extent
import PhpInterpreter.Proofs.Source.Gap
import PhpInterpreter.Proofs.Source.Grammar
import PhpInterpreter.Proofs.Source.Lexeme
import PhpInterpreter.Proofs.Source.LineEnd
import PhpInterpreter.Proofs.Source.Literal
import PhpInterpreter.Proofs.Source.Placement
import PhpInterpreter.Proofs.Source.Position
import PhpInterpreter.Proofs.Source.Precedence
import PhpInterpreter.Proofs.Source.Printing
import PhpInterpreter.Proofs.Source.Relocation
import PhpInterpreter.Proofs.Source.Rendering
import PhpInterpreter.Proofs.Source.Scan
import PhpInterpreter.Proofs.Source.Sound
import PhpInterpreter.Proofs.Source.Span
import PhpInterpreter.Proofs.Source.Step
import PhpInterpreter.Proofs.Value.Canonical
import PhpInterpreter.Proofs.Value.Comparison
import PhpInterpreter.Proofs.Value.Contract
import PhpInterpreter.Proofs.Value.Equivalence
import PhpInterpreter.Proofs.Value.Format
import PhpInterpreter.Proofs.Value.Growth
import PhpInterpreter.Proofs.Value.Identity
import PhpInterpreter.Proofs.Value.Limit
import PhpInterpreter.Proofs.Value.Numeral
import PhpInterpreter.Proofs.Value.Overflow
import PhpInterpreter.Proofs.Value.Path
import PhpInterpreter.Proofs.Value.Placeless
import PhpInterpreter.Proofs.Value.Power
import PhpInterpreter.Proofs.Value.Radix
import PhpInterpreter.Proofs.Value.Rounding
import PhpInterpreter.Proofs.Value.Tidy
import PhpInterpreter.Proofs.Value.Union
import PhpInterpreter.Report
import PhpInterpreter.Shell
import PhpInterpreter.Source.Expr
import PhpInterpreter.Source.Parser
import PhpInterpreter.Source.Print
import PhpInterpreter.Source.Reader
import PhpInterpreter.Source.Token
import PhpInterpreter.Source.Tree
import PhpInterpreter.Term
import PhpInterpreter.Text.Basic
import PhpInterpreter.Text.Blank
import PhpInterpreter.Text.Digit
import PhpInterpreter.Text.Printable
import PhpInterpreter.Text.Quoted
import PhpInterpreter.Text.StringLiteral
import PhpInterpreter.Text.Word
import PhpInterpreter.Value
import PhpInterpreter.Value.Compare
import PhpInterpreter.Value.Convert
import PhpInterpreter.Value.Render
