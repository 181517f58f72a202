import PolicyEditor.CommandLine.Arguments
import PolicyEditor.CommandLine.Command
import PolicyEditor.CommandLine.Execute
import PolicyEditor.CommandLine.Printed
import PolicyEditor.CommandLine.Watch
import PolicyEditor.Completion.Basic
import PolicyEditor.Completion.Cursor
import PolicyEditor.Decimal.Binary64
import PolicyEditor.Decimal.Digits
import PolicyEditor.Engine.Opa
import PolicyEditor.Engine.Process
import PolicyEditor.Engine.Regal
import PolicyEditor.Engine.Tool
import PolicyEditor.Engine.Work
import PolicyEditor.File.Directory
import PolicyEditor.FrontEnd.Analysis
import PolicyEditor.FrontEnd.Basic
import PolicyEditor.FrontEnd.Http
import PolicyEditor.FrontEnd.Message
import PolicyEditor.FrontEnd.Tools
import PolicyEditor.Grammar.Bracket
import PolicyEditor.Grammar.Expression
import PolicyEditor.Grammar.Item
import PolicyEditor.Grammar.Operand
import PolicyEditor.Grammar.Script
import PolicyEditor.Highlight
import PolicyEditor.Hover
import PolicyEditor.Json.Basic
import PolicyEditor.Json.Decode
import PolicyEditor.Json.Encode
import PolicyEditor.Lint.Diagnostic
import PolicyEditor.Lint.Output
import PolicyEditor.Lint.Report
import PolicyEditor.Lint.Scheduler
import PolicyEditor.Lint.Timeline
import PolicyEditor.Main
import PolicyEditor.Path.Basic
import PolicyEditor.Proofs.Completion.Candidates
import PolicyEditor.Proofs.Completion.Members
import PolicyEditor.Proofs.Completion.Opaque
import PolicyEditor.Proofs.Completion.Replacement
import PolicyEditor.Proofs.Engine.CleanReport
import PolicyEditor.Proofs.Engine.Evaluation
import PolicyEditor.Proofs.Expression.RoundTrip
import PolicyEditor.Proofs.FrontEnd.Linting
import PolicyEditor.Proofs.Grammar.AssignedValue
import PolicyEditor.Proofs.Grammar.BracketPairs
import PolicyEditor.Proofs.Grammar.Concatenation
import PolicyEditor.Proofs.Grammar.CursorLeaf
import PolicyEditor.Proofs.Grammar.ExpressionCoverage
import PolicyEditor.Proofs.Grammar.ExpressionGrouping
import PolicyEditor.Proofs.Grammar.ExpressionLocality
import PolicyEditor.Proofs.Grammar.ExpressionRecast
import PolicyEditor.Proofs.Grammar.ExpressionShape
import PolicyEditor.Proofs.Grammar.HarmlessWords
import PolicyEditor.Proofs.Grammar.HeadingLines
import PolicyEditor.Proofs.Grammar.Leaves
import PolicyEditor.Proofs.Grammar.MemberNames
import PolicyEditor.Proofs.Grammar.OperandCoverage
import PolicyEditor.Proofs.Grammar.OperandGrouping
import PolicyEditor.Proofs.Grammar.OperandLocality
import PolicyEditor.Proofs.Grammar.OperandRecast
import PolicyEditor.Proofs.Grammar.OperandShape
import PolicyEditor.Proofs.Grammar.Recast
import PolicyEditor.Proofs.Grammar.RuleBody
import PolicyEditor.Proofs.Grammar.ScriptCoverage
import PolicyEditor.Proofs.Grammar.ScriptGrouping
import PolicyEditor.Proofs.Grammar.ScriptRecast
import PolicyEditor.Proofs.Grammar.ScriptShape
import PolicyEditor.Proofs.Grammar.Seams
import PolicyEditor.Proofs.Grammar.SeparatedItems
import PolicyEditor.Proofs.Grammar.StatementEnds
import PolicyEditor.Proofs.Grammar.StatementSeparation
import PolicyEditor.Proofs.Grammar.StatementStretch
import PolicyEditor.Proofs.Grammar.TopLevel
import PolicyEditor.Proofs.Grammar.TriviaIndependence
import PolicyEditor.Proofs.Highlight.Coverage
import PolicyEditor.Proofs.Highlight.Identifiers
import PolicyEditor.Proofs.Json.Distinct
import PolicyEditor.Proofs.Json.Keys
import PolicyEditor.Proofs.Json.Lexemes
import PolicyEditor.Proofs.Json.Reading
import PolicyEditor.Proofs.Json.Spacing
import PolicyEditor.Proofs.Json.Spelling
import PolicyEditor.Proofs.Json.Tokens
import PolicyEditor.Proofs.Json.Words
import PolicyEditor.Proofs.Lint.Bookkeeping
import PolicyEditor.Proofs.Lint.Closing
import PolicyEditor.Proofs.Lint.Debounce
import PolicyEditor.Proofs.Lint.Diagnostics
import PolicyEditor.Proofs.Lint.History
import PolicyEditor.Proofs.Lint.Publication
import PolicyEditor.Proofs.Lint.SingleEdit
import PolicyEditor.Proofs.Lint.Transition
import PolicyEditor.Proofs.Machine.Declarations
import PolicyEditor.Proofs.Machine.Effect
import PolicyEditor.Proofs.Machine.Ends
import PolicyEditor.Proofs.Machine.Expressions
import PolicyEditor.Proofs.Machine.Operands
import PolicyEditor.Proofs.Machine.Order
import PolicyEditor.Proofs.Machine.Program
import PolicyEditor.Proofs.Machine.Progress
import PolicyEditor.Proofs.Machine.Statements
import PolicyEditor.Proofs.Path.Descent
import PolicyEditor.Proofs.Path.Faults
import PolicyEditor.Proofs.Path.HoverRange
import PolicyEditor.Proofs.Path.Hovering
import PolicyEditor.Proofs.Path.Scanning
import PolicyEditor.Proofs.Path.Spelling
import PolicyEditor.Proofs.Schema.Blocks
import PolicyEditor.Proofs.Schema.Commented
import PolicyEditor.Proofs.Schema.Comments
import PolicyEditor.Proofs.Schema.Declarations
import PolicyEditor.Proofs.Schema.Provenance
import PolicyEditor.Proofs.Schema.Relabelling
import PolicyEditor.Proofs.Schema.Stripping
import PolicyEditor.Proofs.Schema.TopLevelKeys
import PolicyEditor.Proofs.Session.Refinement
import PolicyEditor.Proofs.Text.LineColumns
import PolicyEditor.Proofs.Token.Replacement
import PolicyEditor.Proofs.Token.Separation
import PolicyEditor.Proofs.Token.Splitting
import PolicyEditor.Proofs.Tree.Ancestors
import PolicyEditor.Proofs.Tree.BodyStatements
import PolicyEditor.Proofs.Tree.Cursor
import PolicyEditor.Proofs.Tree.Dressing
import PolicyEditor.Proofs.Tree.Frames
import PolicyEditor.Proofs.Tree.Grouping
import PolicyEditor.Proofs.Tree.Heading
import PolicyEditor.Proofs.Tree.Owners
import PolicyEditor.Proofs.Tree.Recast
import PolicyEditor.Proofs.Tree.Tiling
import PolicyEditor.Schema.Basic
import PolicyEditor.Schema.Block
import PolicyEditor.Schema.Comments
import PolicyEditor.Schema.Document
import PolicyEditor.Schema.Example
import PolicyEditor.Schema.Validation
import PolicyEditor.Session
import PolicyEditor.Settings
import PolicyEditor.Text.Case
import PolicyEditor.Text.Classes
import PolicyEditor.Text.Integer
import PolicyEditor.Text.Lines
import PolicyEditor.Text.Position
import PolicyEditor.Text.Quoted
import PolicyEditor.Text.Split
import PolicyEditor.Text.Utf8
import PolicyEditor.Text.Word
import PolicyEditor.Token.Basic
import PolicyEditor.Token.Scan
import PolicyEditor.Tree.Basic
import PolicyEditor.Tree.Outline
import PolicyEditor.Tree.Trivia
import PolicyEditor.Validation.Basic
import PolicyEditor.Validation.Numeral
import PolicyEditor.Watcher
import PolicyEditor.Proofs.Lint.Waking
import PolicyEditor.Proofs.Json.Assembly
import PolicyEditor.Proofs.CommandLine.WatchedFiles
import PolicyEditor.Proofs.Lint.ListedViolations
import PolicyEditor.Proofs.Schema.Checking
import PolicyEditor.Proofs.Schema.Documents
