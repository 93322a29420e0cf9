import Reckon.Arithmetic
import Reckon.Association
import Reckon.Calculation
import Reckon.CommandLine
import Reckon.Cursor
import Reckon.Datum
import Reckon.Datum.Merge
import Reckon.Datum.Show
import Reckon.Desk
import Reckon.Diagnostic
import Reckon.Double.Exact
import Reckon.Double.Numeral
import Reckon.Double.Places
import Reckon.Double.Shortest
import Reckon.Double.Spelling
import Reckon.Evaluation
import Reckon.Expr
import Reckon.Expr.Show
import Reckon.Fault
import Reckon.FileTree
import Reckon.Grammar
import Reckon.Guide
import Reckon.Limit
import Reckon.Machine
import Reckon.Main
import Reckon.Moment
import Reckon.Number
import Reckon.Origin
import Reckon.Parser
import Reckon.Proofs.Computation
import Reckon.Proofs.ExpandedText
import Reckon.Proofs.Expansion
import Reckon.Proofs.Phrase
import Reckon.Proofs.Progress
import Reckon.Proofs.Range
import Reckon.Proofs.Reading
import Reckon.Proofs.Refinement
import Reckon.Proofs.Sessions
import Reckon.Proofs.Soundness
import Reckon.Proofs.Spelling
import Reckon.Proofs.Unplaced
import Reckon.Randomness
import Reckon.Scope
import Reckon.Service
import Reckon.Session
import Reckon.Settings.Loading
import Reckon.Settings.Memory
import Reckon.Settings.Reader
import Reckon.Settings.Store
import Reckon.Settings.Validation
import Reckon.Text.Blank
import Reckon.Text.Lines
import Reckon.Text.Pieces
import Reckon.Text.Points
import Reckon.Text.Quoted
import Reckon.Text.Shown
import Reckon.Text.Upper
import Reckon.Text.Utf8
import Reckon.Vocabulary
import Reckon.Yaml.Failure
import Reckon.Yaml.Lexer
import Reckon.Yaml.Node
import Reckon.Yaml.Plain
import Reckon.Yaml.Reader
import Reckon.Yaml.ScalarText
import Reckon.Yaml.Source
import Reckon.Yaml.Spot
import Reckon.Yaml.Timestamp
import Reckon.Yaml.Token
import Reckon.Yaml.Word
import Reckon.Proofs.Writing
import Reckon.Proofs.Spacing
import Reckon.Proofs.SpacedReading
import Reckon.Proofs.Failure
import Reckon.Proofs.Truth
import Reckon.Proofs.Lookahead
import Reckon.Proofs.ViablePrefix
import Reckon.Proofs.Placement
import Reckon.Proofs.Places
import Reckon.Proofs.Printing
import Reckon.Proofs.Validation
import Reckon.Proofs.UsableSettings
import Reckon.Proofs.Calculations
import Reckon.Proofs.Endings
import Reckon.Proofs.Depth
import Reckon.Proofs.Layout
import Reckon.Proofs.SharedMemory
import Reckon.Proofs.SharedSettings
import Reckon.Proofs.HeldSettings
import Reckon.Proofs.Requests
import Reckon.Proofs.Answers
import Reckon.Proofs.Methods
import Reckon.Proofs.Contract
import Reckon.Proofs.VariableNames
import Reckon.Proofs.Assignments
import Reckon.Proofs.Draws
import Reckon.Proofs.Apart
import Reckon.Proofs.Keys
import Reckon.Proofs.Merging
import Reckon.Proofs.Normalization
import Reckon.Proofs.Acceptance
import Reckon.Proofs.Scopes
import Reckon.Proofs.Walks
import Reckon.Proofs.Rounding
import Reckon.Proofs.ExactValues
import Reckon.Proofs.HalfUp
import Reckon.Proofs.ShortestDecimal
import Reckon.Proofs.Decimals
import Reckon.Proofs.PrintedValues
import Reckon.Proofs.Powers
