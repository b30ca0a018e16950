import FilterShell.Proofs.Value.LexTree
import FilterShell.Text.Basic
import FilterShell.Session.Options
import FilterShell.Text.Blank
import FilterShell.Text.Digit
import FilterShell.Decimal.Basic
import FilterShell.Decimal.Order
import FilterShell.Decimal.Arithmetic
import FilterShell.Decimal.Binary
import FilterShell.Filter.Basic
import FilterShell.Proofs.Decimal.Digits
import FilterShell.Proofs.Decimal.Sign
import FilterShell.Proofs.Decimal.Value
import FilterShell.Proofs.Decimal.Whole
import FilterShell.Text.Literal
import FilterShell.Text.NameTable
import FilterShell.Text.Names
import FilterShell.Text.Printable
import FilterShell.Text.Quoted
import FilterShell.Filter.Print
import FilterShell.Filter.Permission
import FilterShell.Text.Utf8
import FilterShell.Command.System
import FilterShell.Token.Basic
import FilterShell.Token.Scan
import FilterShell.Filter.Item
import FilterShell.Fault
import FilterShell.Filter.Bracket
import FilterShell.Filter.Operators
import FilterShell.Filter.Parse
import FilterShell.Proofs.Filter.Tree
import FilterShell.Proofs.Outcome
import FilterShell.Proofs.Filter.Rewriting
import FilterShell.Proofs.Token.Literal
import FilterShell.Proofs.Token.Regular
import FilterShell.Proofs.Filter.Origin
import FilterShell.Proofs.Filter.Grouping
import FilterShell.Proofs.Filter.Clauses
import FilterShell.Proofs.Filter.Derivation
import FilterShell.Proofs.Filter.Alike
import FilterShell.Proofs.Filter.Brackets
import FilterShell.Proofs.Filter.Places
import FilterShell.Proofs.Filter.Regrouping
import FilterShell.Proofs.Token.Lossless
import FilterShell.Proofs.Token.StringGrammar
import FilterShell.Proofs.Token.Written
import FilterShell.Proofs.Filter.Printed
import FilterShell.Proofs.Filter.Reading
import FilterShell.Proofs.Filter.Matching
import FilterShell.Proofs.Filter.Precedence
import FilterShell.Proofs.Filter.Rereading
import FilterShell.Proofs.Filter.Restriction
import FilterShell.Proofs.Filter.Sandbox
import FilterShell.Value.Basic
import FilterShell.Value.Sort
import FilterShell.Value.Store
import FilterShell.Eval.Stream
import FilterShell.Value.Relations
import FilterShell.Proofs.Value.Answers
import FilterShell.Proofs.Value.Standing
import FilterShell.Proofs.Value.Agreement
import FilterShell.Proofs.Value.Levels
import FilterShell.Proofs.Value.Drained
import FilterShell.Proofs.Value.Listing
import FilterShell.Value.Datum
import FilterShell.Proofs.Value.Exceptions
import FilterShell.Value.Index
import FilterShell.Proofs.Value.Sealed
import FilterShell.Proofs.Value.Blind
import FilterShell.Value.Text
import FilterShell.Proofs.Text.Faithful
import FilterShell.Proofs.Value.Rendered
import FilterShell.Value.Given
import FilterShell.Channel.Basic
import FilterShell.Json.Basic
import FilterShell.Eval.Meaning
import FilterShell.Eval.Combine
import FilterShell.Eval.Builtin
import FilterShell.Eval.Generate
import FilterShell.Json.Read
import FilterShell.Eval.Command
import FilterShell.Eval.Apply
import FilterShell.Eval.Run
import FilterShell.Proofs.Channel.Delivery
import FilterShell.Proofs.Eval.Keys
import FilterShell.Proofs.Eval.Outputs
import FilterShell.Proofs.Eval.Branches
import FilterShell.Proofs.Eval.Commas
import FilterShell.Proofs.Eval.Handlers
import FilterShell.Proofs.Eval.Reductions
import FilterShell.Proofs.Eval.Running
import FilterShell.Proofs.Eval.Variables
import FilterShell.Proofs.Json.Calm
import FilterShell.Proofs.Eval.Calls
import FilterShell.Proofs.Eval.Ending
import FilterShell.Proofs.Eval.Silent
import FilterShell.Proofs.Eval.Characters
import FilterShell.Proofs.Eval.Products
import FilterShell.Proofs.Json.Grammar
import FilterShell.Proofs.Json.Scanned
import FilterShell.Proofs.Token.Lines
import FilterShell.Proofs.Json.Reading
import FilterShell.Proofs.Json.Document
import FilterShell.Proofs.Json.Refused
import FilterShell.Proofs.Json.Outcomes
import FilterShell.Proofs.Json.Retry
import FilterShell.Proofs.Json.RoundTrip
import FilterShell.Proofs.Json.Sequence
import FilterShell.Proofs.Json.Faults
import FilterShell.Proofs.Json.Unfinished
import FilterShell.Session.Path
import FilterShell.Value.Compare
import FilterShell.Proofs.Value.Discipline
import FilterShell.Proofs.Value.Order
import FilterShell.Proofs.Value.Parallel
import FilterShell.Proofs.Value.Regardless
import FilterShell.Value.Layout
import FilterShell.Proofs.Value.Exhausted
import FilterShell.Proofs.Value.Layout
import FilterShell.Session.Print
import FilterShell.Proofs.Value.Quiet
import FilterShell.Proofs.Json.Blind
import FilterShell.Proofs.Eval.Blind
import FilterShell.Proofs.Eval.BlindFilters
import FilterShell.Session.Shell
import FilterShell.Main
import FilterShell.Proofs.Filter.Failing
import FilterShell.Proofs.Session.OneProgram
import FilterShell.Value.Search
import FilterShell.Proofs.Value.FiniteMap
import FilterShell.Proofs.Value.PartlyRead
import FilterShell.Proofs.Value.Permuted
import FilterShell.Value.Slice
import FilterShell.Workspace.Basic
import FilterShell.Workspace.Flow
import FilterShell.Proofs.Channel.Workspace
import FilterShell.Workspace.Run
import FilterShell.Workspace.Step
import FilterShell.Proofs.Workspace.Sequence
import FilterShell.Proofs.Token.Positions
import FilterShell.Proofs.Token.Turns
import FilterShell.Proofs.Token.Nesting
import FilterShell.Proofs.Value.Subscripts
import FilterShell.Proofs.Workspace.Attributes
import FilterShell.Proofs.Workspace.Splitting
import FilterShell.Proofs.Workspace.Streams
import FilterShell.Proofs.Session.CommandLine
