import ScriptLint.Command.Arguments
import ScriptLint.Command.Directory
import ScriptLint.Command.Run
import ScriptLint.Grammar.Cursor
import ScriptLint.Grammar.Expression
import ScriptLint.Grammar.Program
import ScriptLint.Grammar.Repetition
import ScriptLint.Grammar.Statement
import ScriptLint.Grammar.SyntaxError
import ScriptLint.Json.Reader
import ScriptLint.Json.Value
import ScriptLint.Linter
import ScriptLint.Number.Binary64
import ScriptLint.Number.Layout
import ScriptLint.Number.Shortest
import ScriptLint.Pattern.Basic
import ScriptLint.Pattern.Engine
import ScriptLint.Pattern.Reader
import ScriptLint.Proofs.Grammar.Reading
import ScriptLint.Proofs.Grammar.Phrase
import ScriptLint.Proofs.Grammar.Run
import ScriptLint.Report.Basic
import ScriptLint.Rule.Basic
import ScriptLint.Rule.Builtin
import ScriptLint.Rule.Listing
import ScriptLint.Settings
import ScriptLint.Source.Position
import ScriptLint.Symbols
import ScriptLint.Text.Blank
import ScriptLint.Token.Basic
import ScriptLint.Token.Conversion
import ScriptLint.Token.Keyword
import ScriptLint.Token.Lossless
import ScriptLint.Token.Numeral
import ScriptLint.Token.Punctuator
import ScriptLint.Token.Segment
import ScriptLint.Token.Stream
import ScriptLint.Tree.Node
import ScriptLint.Tree.NodeType
import ScriptLint.Tree.Operator
import ScriptLint.Tree.Typed
import ScriptLint.Tree.Walk
import ScriptLint.Main
import ScriptLint.Proofs.Grammar.ExpressionReading
import ScriptLint.Proofs.Grammar.StatementReading
import ScriptLint.Proofs.Grammar.Yield
import ScriptLint.Proofs.Grammar.Location
import ScriptLint.Proofs.Token.Partition
import ScriptLint.Proofs.Grammar.Follow
import ScriptLint.Proofs.Grammar.ExpressionComplete
import ScriptLint.Proofs.Grammar.StatementComplete
import ScriptLint.Proofs.Print.Canonical
import ScriptLint.Proofs.Print.Fits
import ScriptLint.Proofs.Print.RoundTrip
import ScriptLint.Proofs.Tree.Unlocated
import ScriptLint.Proofs.Grammar.Uniform
import ScriptLint.Proofs.Grammar.ExpressionUniform
import ScriptLint.Proofs.Grammar.StatementUniform
import ScriptLint.Proofs.Grammar.Lockstep
import ScriptLint.Proofs.Grammar.Elaboration
import ScriptLint.Proofs.Grammar.Layout
import ScriptLint.Proofs.Grammar.LineBreaks
import ScriptLint.Proofs.Token.Offsets
import ScriptLint.Proofs.Token.Faded
import ScriptLint.Proofs.Token.Blanked
import ScriptLint.Proofs.Linter.Blanks
import ScriptLint.Proofs.Tree.Paths
import ScriptLint.Proofs.Rule.Entries
import ScriptLint.Proofs.Pattern.Literal
import ScriptLint.Proofs.Symbols.LastWins
import ScriptLint.Proofs.Grammar.Derived
import ScriptLint.Proofs.Linter.Clean
import ScriptLint.Proofs.Grammar.WellFormed
import ScriptLint.Proofs.Grammar.Depth
import ScriptLint.Proofs.Grammar.Progress
import ScriptLint.Proofs.Grammar.Sessions
import ScriptLint.Proofs.Grammar.Height
import ScriptLint.Proofs.Linter.Selection
import ScriptLint.Proofs.Token.WholeLines
import ScriptLint.Proofs.Grammar.Nearsighted
import ScriptLint.Proofs.Grammar.Violations
import ScriptLint.Proofs.Grammar.LastToken
import ScriptLint.Proofs.Grammar.Composition
import ScriptLint.Proofs.Grammar.OperatorTree
import ScriptLint.Proofs.Command.CheckOutcome
import ScriptLint.Proofs.Number.Rounding
import ScriptLint.Proofs.Number.ReadBack
import ScriptLint.Proofs.Json.Grammar
import ScriptLint.Proofs.Json.Accepts
import ScriptLint.Proofs.Json.Numbers
import ScriptLint.Proofs.Json.Writer
import ScriptLint.Proofs.Report.Faithful
import ScriptLint.Proofs.Report.TokenDump
import ScriptLint.Proofs.Grammar.Brackets
import ScriptLint.Proofs.Grammar.InOperator
import ScriptLint.Proofs.Grammar.NearestIf
import ScriptLint.Proofs.Token.LongestNumeral
import ScriptLint.Proofs.Token.Lexemes
import ScriptLint.Proofs.Token.MaximalMunch
import ScriptLint.Proofs.Tree.Preorder
import ScriptLint.Proofs.Tree.Typed
import ScriptLint.Proofs.Token.Conversion
import ScriptLint.Proofs.Token.Requests
import ScriptLint.Proofs.Number.Nearest
import ScriptLint.Proofs.Token.NumeralValues
import ScriptLint.Proofs.Linter.Unused
import ScriptLint.Proofs.Settings.Decoding
