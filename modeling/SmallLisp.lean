import SmallLisp.Blake2b
import SmallLisp.CommandLine.Console
import SmallLisp.CommandLine.Interpreter
import SmallLisp.CommandLine.Machine
import SmallLisp.CommandLine.TreePrinter
import SmallLisp.Eval.Basic
import SmallLisp.Eval.Run
import SmallLisp.Interchange.Binary
import SmallLisp.Interchange.Datum
import SmallLisp.Interchange.Json
import SmallLisp.Interchange.JsonNumber
import SmallLisp.Interchange.MessagePack
import SmallLisp.Loc
import SmallLisp.Main
import SmallLisp.Node.Basic
import SmallLisp.Node.Reader
import SmallLisp.Number.Arithmetic
import SmallLisp.Number.Decimal
import SmallLisp.Number.Layout
import SmallLisp.Options.Config
import SmallLisp.Options.Flag
import SmallLisp.Options.Numeral
import SmallLisp.Prelude.Data
import SmallLisp.Prelude.Encoding
import SmallLisp.Prelude.Forms
import SmallLisp.Repl.Basic
import SmallLisp.Repl.Command
import SmallLisp.Repl.Completion
import SmallLisp.Repl.History
import SmallLisp.Repl.Lines
import SmallLisp.Scope
import SmallLisp.Script.Basic
import SmallLisp.Script.Compile
import SmallLisp.Script.Wire
import SmallLisp.Session.Basic
import SmallLisp.Session.Run
import SmallLisp.Text.Blank
import SmallLisp.Text.Hex
import SmallLisp.Text.Printable
import SmallLisp.Text.Quoted
import SmallLisp.Text.Utf8
import SmallLisp.Token.Basic
import SmallLisp.Token.Lexer
import SmallLisp.Value.Basic
import SmallLisp.Value.Digest
import SmallLisp.Value.Dump
import SmallLisp.Value.Fault
import SmallLisp.Proofs.Scope.Chains
import SmallLisp.Proofs.Eval.Frames
import SmallLisp.Proofs.Eval.Fuel
import SmallLisp.Proofs.Eval.Termination
import SmallLisp.Proofs.Node.Grammar
import SmallLisp.Proofs.Node.RoundTrip
import SmallLisp.Proofs.Eval.Limit
import SmallLisp.Proofs.Script.Compile
import SmallLisp.Proofs.Script.Machine
import SmallLisp.Proofs.Script.Meaning
import SmallLisp.Proofs.Script.Balance
import SmallLisp.Proofs.Interchange.Binary
import SmallLisp.Proofs.Script.Wire
import SmallLisp.Proofs.Value.Likeness
import SmallLisp.Proofs.Eval.Wrapped
import SmallLisp.Proofs.Eval.Barring
import SmallLisp.Proofs.Eval.Correspondence
import SmallLisp.Proofs.Eval.Pairing
import SmallLisp.Proofs.Eval.Bindings
import SmallLisp.Proofs.Eval.Places
import SmallLisp.Proofs.Script.Coverage
import SmallLisp.Proofs.Token.Lines
import SmallLisp.Proofs.Node.Lines
import SmallLisp.Proofs.Repl.Lines
import SmallLisp.Proofs.Repl.Loading
import SmallLisp.Proofs.Value.Bindings
import SmallLisp.Proofs.Eval.Observers
import SmallLisp.Proofs.Eval.Stores
import SmallLisp.Proofs.Eval.Renumbering
import SmallLisp.Proofs.Session.Clearing
import SmallLisp.Proofs.Session.Forest
import SmallLisp.Proofs.Eval.Checks
import SmallLisp.Proofs.Eval.Keeping
import SmallLisp.Proofs.Eval.Marks
import SmallLisp.Proofs.Eval.Calls
import SmallLisp.Proofs.Interchange.Datum
import SmallLisp.Proofs.Interchange.MessagePack
import SmallLisp.Proofs.Interchange.JsonNumber
import SmallLisp.Proofs.Number.Order
import SmallLisp.Proofs.Interchange.Json
import SmallLisp.Proofs.Session.Nesting
import SmallLisp.Proofs.Node.Faults
import SmallLisp.Proofs.Node.Continuation
import SmallLisp.Proofs.Node.Attachment
import SmallLisp.Proofs.Repl.Expression
import SmallLisp.Proofs.Node.Concatenation
import SmallLisp.Proofs.Token.Gaps
import SmallLisp.Proofs.Token.Words
import SmallLisp.Proofs.Token.Lossless
import SmallLisp.Proofs.Eval.Indifference
import SmallLisp.Proofs.Eval.Applying
import SmallLisp.Proofs.Eval.Located
import SmallLisp.Proofs.Session.Depth
import SmallLisp.Proofs.Eval.Reading
import SmallLisp.Proofs.Value.Printing
import SmallLisp.Proofs.Value.Digest
import SmallLisp.Proofs.Script.Pool
import SmallLisp.Proofs.Session.Repetition
import SmallLisp.Proofs.Scope.Visibility
import SmallLisp.Proofs.Token.Runs
