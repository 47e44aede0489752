import TclHost.Double.Decimal
import TclHost.Double.Exact
import TclHost.Double.Integral
import TclHost.Double.Numeral
import TclHost.Expr.Grammar
import TclHost.Expr.Lexer
import TclHost.Expr.Operator
import TclHost.Expr.Printer
import TclHost.Expr.Syntax
import TclHost.Expr.Token
import TclHost.Host.Engine
import TclHost.Host.Error
import TclHost.Host.Files
import TclHost.Host.Handle
import TclHost.Host.Session
import TclHost.Host.Startup
import TclHost.Host.Typed
import TclHost.Host.Worker
import TclHost.Interp.Command.Control
import TclHost.Interp.Command.List
import TclHost.Interp.Command.Outside
import TclHost.Interp.Command.Text
import TclHost.Interp.Command.Variable
import TclHost.Interp.Error
import TclHost.Interp.Eval
import TclHost.Interp.Expression
import TclHost.Interp.Index
import TclHost.Interp.Procedure
import TclHost.Interp.State
import TclHost.Interp.Substitution
import TclHost.Interp.Table
import TclHost.Octet.Position
import TclHost.Octet.Scanner
import TclHost.Octet.Script
import TclHost.Octet.Token
import TclHost.Proofs.Double.Bits
import TclHost.Proofs.Double.Integral
import TclHost.Proofs.Double.Nearest
import TclHost.Proofs.Double.Numeral
import TclHost.Proofs.Double.Order
import TclHost.Proofs.Double.ReadBack
import TclHost.Proofs.Double.Rounded
import TclHost.Proofs.Double.Shortest
import TclHost.Proofs.Evaluation.Agreement
import TclHost.Proofs.Evaluation.Commands
import TclHost.Proofs.Evaluation.Congruence
import TclHost.Proofs.Evaluation.Effects
import TclHost.Proofs.Evaluation.Failure
import TclHost.Proofs.Evaluation.ForEach
import TclHost.Proofs.Evaluation.Forwarding
import TclHost.Proofs.Evaluation.Nesting
import TclHost.Proofs.Evaluation.Sequence
import TclHost.Proofs.Evaluation.Surroundings
import TclHost.Proofs.Evaluation.WordEnd
import TclHost.Proofs.Expr.Compact
import TclHost.Proofs.Expr.Comparison
import TclHost.Proofs.Expr.Derivation
import TclHost.Proofs.Expr.IntegerFunction
import TclHost.Proofs.Expr.IntegerOperator
import TclHost.Proofs.Expr.IntegerPower
import TclHost.Proofs.Expr.Interchange
import TclHost.Proofs.Expr.Junction
import TclHost.Proofs.Expr.Level
import TclHost.Proofs.Expr.NumberToken
import TclHost.Proofs.Expr.Operand
import TclHost.Proofs.Expr.Path
import TclHost.Proofs.Expr.Printed
import TclHost.Proofs.Expr.RoundTrip
import TclHost.Proofs.Expr.Spaced
import TclHost.Proofs.Host.DoubleResult
import TclHost.Proofs.Host.Facade
import TclHost.Proofs.Host.IntegerResult
import TclHost.Proofs.Host.TypedResult
import TclHost.Proofs.Host.WorkerClock
import TclHost.Proofs.Host.WorkerQueue
import TclHost.Proofs.Interp.Position
import TclHost.Proofs.Interp.Removal
import TclHost.Proofs.Octet.Boundary
import TclHost.Proofs.Octet.Position
import TclHost.Proofs.Octet.Scanner
import TclHost.Proofs.Octet.Script
import TclHost.Proofs.Octet.Token
import TclHost.Proofs.Octet.Word
import TclHost.Proofs.Script.CutOff
import TclHost.Proofs.Script.Finished
import TclHost.Proofs.Script.Grammar
import TclHost.Proofs.Script.LineEnd
import TclHost.Proofs.Script.Literal
import TclHost.Proofs.Script.WordList
import TclHost.Proofs.TclList.Command
import TclHost.Proofs.TclList.Concat
import TclHost.Proofs.TclList.Nested
import TclHost.Proofs.TclList.RoundTrip
import TclHost.Proofs.TclList.Split
import TclHost.Proofs.TclList.Weight
import TclHost.Proofs.Template.DirectiveForm
import TclHost.Proofs.Template.GeneralForm
import TclHost.Proofs.Template.InertWord
import TclHost.Proofs.Template.Integer
import TclHost.Proofs.Template.Layout
import TclHost.Proofs.Template.Padding
import TclHost.Proofs.Template.ShortForm
import TclHost.Proofs.Text.Balanced
import TclHost.Proofs.Text.Glob
import TclHost.Proofs.Text.Trim
import TclHost.Proofs.Text.Written
import TclHost.Proofs.Value.IntegerForm
import TclHost.Proofs.Value.NumberText
import TclHost.Proofs.Value.Order
import TclHost.Proofs.Value.Reading
import TclHost.Script.Reader
import TclHost.Script.Syntax
import TclHost.TclList.Printer
import TclHost.TclList.Reader
import TclHost.Template.Arg
import TclHost.Template.Directive
import TclHost.Template.Expansion
import TclHost.Template.Quote
import TclHost.Template.Verb
import TclHost.Text.Blank
import TclHost.Text.Case
import TclHost.Text.CaseTable
import TclHost.Text.Delimited
import TclHost.Text.Digit
import TclHost.Text.Escape
import TclHost.Text.Glob
import TclHost.Text.Utf8
import TclHost.Text.VariableName
import TclHost.Value.Basic
import TclHost.Value.Number
