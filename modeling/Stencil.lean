import Stencil.Analysis
import Stencil.Branch.Context
import Stencil.Branch.Store
import Stencil.Condition.Basic
import Stencil.Condition.Cache
import Stencil.Condition.Test
import Stencil.Error
import Stencil.Json.Basic
import Stencil.Json.Digits
import Stencil.Json.Number
import Stencil.Json.Printer
import Stencil.Json.Reader
import Stencil.Lint.Config
import Stencil.Lint.Diagnostic
import Stencil.Lint.File
import Stencil.Lint.Linter
import Stencil.Lint.Registry
import Stencil.Lint.Rule
import Stencil.Lint.Rules.Code
import Stencil.Lint.Rules.Delimiters
import Stencil.Lint.Rules.Markup
import Stencil.Lint.Rules.Terms
import Stencil.Lint.Scripted
import Stencil.Markup.Reader
import Stencil.Markup.Tree
import Stencil.Outline
import Stencil.Pattern.Basic
import Stencil.Pattern.CharSet
import Stencil.Pattern.Source
import Stencil.Proofs.Analysis.Failure
import Stencil.Proofs.Analysis.Items
import Stencil.Proofs.Analysis.Looks
import Stencil.Proofs.Analysis.Once
import Stencil.Proofs.Analysis.Output
import Stencil.Proofs.Analysis.Statements
import Stencil.Proofs.Analysis.TagTokens
import Stencil.Proofs.Branch.Boundaries
import Stencil.Proofs.Branch.Collection
import Stencil.Proofs.Branch.Consistent
import Stencil.Proofs.Branch.Coverage
import Stencil.Proofs.Branch.Ends
import Stencil.Proofs.Branch.Exclusive
import Stencil.Proofs.Branch.Fork
import Stencil.Proofs.Branch.Groups
import Stencil.Proofs.Branch.Growth
import Stencil.Proofs.Branch.History
import Stencil.Proofs.Branch.Laminar
import Stencil.Proofs.Branch.Path
import Stencil.Proofs.Branch.Steps
import Stencil.Proofs.Branch.ViewText
import Stencil.Proofs.Condition.Assumptions
import Stencil.Proofs.Condition.Cache
import Stencil.Proofs.Condition.Negation
import Stencil.Proofs.Condition.Sharing
import Stencil.Proofs.Condition.Soundness
import Stencil.Proofs.Json.Entries
import Stencil.Proofs.Json.RoundTrip
import Stencil.Proofs.Json.Spelling
import Stencil.Proofs.Lint.Choosing
import Stencil.Proofs.Lint.Configuration
import Stencil.Proofs.Lint.Edits
import Stencil.Proofs.Lint.Findings
import Stencil.Proofs.Lint.Fixing
import Stencil.Proofs.Lint.Independence
import Stencil.Proofs.Lint.Pass
import Stencil.Proofs.Lint.Passes
import Stencil.Proofs.Lint.Repeats
import Stencil.Proofs.Lint.Spacing
import Stencil.Proofs.Lint.TermPatterns
import Stencil.Proofs.Lint.Terms
import Stencil.Proofs.Lint.Tidy
import Stencil.Proofs.Markup.Attributes
import Stencil.Proofs.Markup.Depth
import Stencil.Proofs.Markup.Extent
import Stencil.Proofs.Markup.Frame
import Stencil.Proofs.Markup.Geometry
import Stencil.Proofs.Markup.Inner
import Stencil.Proofs.Markup.Issues
import Stencil.Proofs.Markup.Pieces
import Stencil.Proofs.Markup.Place
import Stencil.Proofs.Markup.Preorder
import Stencil.Proofs.Markup.Printing
import Stencil.Proofs.Markup.RawText
import Stencil.Proofs.Markup.Reading
import Stencil.Proofs.Markup.Sight
import Stencil.Proofs.Markup.Slashes
import Stencil.Proofs.Markup.Steps
import Stencil.Proofs.Markup.Tokens
import Stencil.Proofs.Pattern.Delimited
import Stencil.Proofs.Pattern.Escape
import Stencil.Proofs.Pattern.Place
import Stencil.Proofs.Pattern.Reading
import Stencil.Proofs.Script.Alone
import Stencil.Proofs.Script.Beginnings
import Stencil.Proofs.Script.Blunt
import Stencil.Proofs.Script.Bounds
import Stencil.Proofs.Script.Brackets
import Stencil.Proofs.Script.CommentOrder
import Stencil.Proofs.Script.Comments
import Stencil.Proofs.Script.Edges
import Stencil.Proofs.Script.Enclosing
import Stencil.Proofs.Script.Expressions
import Stencil.Proofs.Script.Keeping
import Stencil.Proofs.Script.Locality
import Stencil.Proofs.Script.Lookup
import Stencil.Proofs.Script.Moved
import Stencil.Proofs.Script.Nesting
import Stencil.Proofs.Script.Numbering
import Stencil.Proofs.Script.Order
import Stencil.Proofs.Script.Parenthesized
import Stencil.Proofs.Script.Partition
import Stencil.Proofs.Script.Parts
import Stencil.Proofs.Script.Postorder
import Stencil.Proofs.Script.Reached
import Stencil.Proofs.Script.Reading
import Stencil.Proofs.Script.Seam.Agreement
import Stencil.Proofs.Script.Seam.Ahead
import Stencil.Proofs.Script.Seam.Arrows
import Stencil.Proofs.Script.Seam.Expressions
import Stencil.Proofs.Script.Seam.Forms
import Stencil.Proofs.Script.Seam.Nodes
import Stencil.Proofs.Script.Seam.Opening
import Stencil.Proofs.Script.Seam.Parentheses
import Stencil.Proofs.Script.Seam.Statements
import Stencil.Proofs.Script.Seam.Steps
import Stencil.Proofs.Script.Shape
import Stencil.Proofs.Script.Statements
import Stencil.Proofs.Script.TokenOrder
import Stencil.Proofs.Script.Tokens
import Stencil.Proofs.Script.Traversal
import Stencil.Proofs.Span
import Stencil.Proofs.Tag.Delimiters
import Stencil.Proofs.Tag.Openers
import Stencil.Proofs.Tag.Pieces
import Stencil.Proofs.Tag.Run
import Stencil.Proofs.Tag.Scan
import Stencil.Proofs.Tag.Tiling
import Stencil.Proofs.Text.Bytes
import Stencil.Proofs.Text.Locations
import Stencil.Proofs.Text.Trim
import Stencil.Proofs.View.Blank
import Stencil.Proofs.View.Blanking
import Stencil.Proofs.View.Canonical
import Stencil.Proofs.View.Edges
import Stencil.Proofs.View.Layout
import Stencil.Proofs.View.Lines
import Stencil.Proofs.View.Marks
import Stencil.Proofs.View.Markup
import Stencil.Proofs.View.Overwrite
import Stencil.Proofs.View.Script
import Stencil.Proofs.View.TagEnds
import Stencil.Proofs.Walk
import Stencil.Script.Bracket
import Stencil.Script.Fault
import Stencil.Script.Grammar
import Stencil.Script.Grammar.Class
import Stencil.Script.Grammar.Expression
import Stencil.Script.Grammar.Function
import Stencil.Script.Grammar.Level
import Stencil.Script.Grammar.Module
import Stencil.Script.Grammar.Pattern
import Stencil.Script.Grammar.Statement
import Stencil.Script.Grammar.Target
import Stencil.Script.Lexeme
import Stencil.Script.Lexing
import Stencil.Script.Lexing.Escape
import Stencil.Script.Lexing.Number
import Stencil.Script.Lexing.Quoted
import Stencil.Script.Lexing.Trivia
import Stencil.Script.Lexing.Word
import Stencil.Script.Lowering
import Stencil.Script.Program
import Stencil.Script.Reader
import Stencil.Script.Token
import Stencil.Script.Tree
import Stencil.Tag.Basic
import Stencil.Tag.Config
import Stencil.Tag.Scan
import Stencil.Tag.Settings
import Stencil.Text.Basic
import Stencil.Text.Category
import Stencil.Text.Letter
import Stencil.Text.Lines
import Stencil.Text.Span
import Stencil.View.Blank
import Stencil.View.Markup
import Stencil.View.Script
