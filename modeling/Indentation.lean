import Indentation.Command.Arguments
import Indentation.Command.Report
import Indentation.Command.Run
import Indentation.Config.Configuration
import Indentation.Config.Entry
import Indentation.Config.Loader
import Indentation.Config.Overlay
import Indentation.Construct.Basic
import Indentation.Construct.Body
import Indentation.Construct.Callable
import Indentation.Construct.Declaration
import Indentation.Construct.Operation
import Indentation.Construct.Owner
import Indentation.Construct.Sequence
import Indentation.Decimal.Binary64
import Indentation.Decimal.Shortest
import Indentation.Diff.Basic
import Indentation.Directive.Basic
import Indentation.Directive.Suppression
import Indentation.Files.Path
import Indentation.Files.Tree
import Indentation.Grammar.Build
import Indentation.Grammar.Parse
import Indentation.Grammar.Piece
import Indentation.Grammar.Reader
import Indentation.Json.Basic
import Indentation.Json.Number
import Indentation.Json.Reader
import Indentation.Json.Shape
import Indentation.Json.Writer
import Indentation.Layout.Graph
import Indentation.Layout.Indents
import Indentation.Layout.Margin
import Indentation.Layout.Mismatch
import Indentation.Layout.Parens
import Indentation.Layout.Width
import Indentation.Layout.Write
import Indentation.Lint.Basic
import Indentation.Lint.Fixing
import Indentation.Lint.Indent
import Indentation.Lint.Linter
import Indentation.Lint.Registry
import Indentation.Main
import Indentation.Options.Basic
import Indentation.Options.Reader
import Indentation.Proofs.Construct.Bodies
import Indentation.Proofs.Construct.Carried
import Indentation.Proofs.Construct.Containers
import Indentation.Proofs.Construct.Lists
import Indentation.Proofs.Construct.Operations
import Indentation.Proofs.Construct.Placed
import Indentation.Proofs.Construct.Places
import Indentation.Proofs.Construct.Rigid
import Indentation.Proofs.Construct.Within
import Indentation.Proofs.Directive.Carried
import Indentation.Proofs.Except
import Indentation.Proofs.Json.Parts
import Indentation.Proofs.Layout.Carried
import Indentation.Proofs.Layout.Edges
import Indentation.Proofs.Layout.Forward
import Indentation.Proofs.Layout.Parens
import Indentation.Proofs.Layout.Resolve
import Indentation.Proofs.Lint.Acyclic
import Indentation.Proofs.Lint.Broken
import Indentation.Proofs.Lint.Findings
import Indentation.Proofs.Lint.Pass
import Indentation.Proofs.Lint.Placed
import Indentation.Proofs.Lint.Stable
import Indentation.Proofs.Options.Merge
import Indentation.Proofs.Options.Settings
import Indentation.Proofs.Text.Edit
import Indentation.Proofs.Text.LineEnds
import Indentation.Proofs.Text.Lines
import Indentation.Proofs.Text.Reindent
import Indentation.Proofs.Text.Search
import Indentation.Proofs.Text.Split
import Indentation.Proofs.Token.Carried
import Indentation.Proofs.Token.Cut
import Indentation.Proofs.Token.Leaders
import Indentation.Proofs.Token.Lexemes
import Indentation.Proofs.Token.Margins
import Indentation.Proofs.Token.Moved
import Indentation.Proofs.Token.Order
import Indentation.Proofs.Token.Rows
import Indentation.Proofs.Token.Tracks
import Indentation.Proofs.Token.WellFormed
import Indentation.Proofs.Tree.Carried
import Indentation.Proofs.Tree.Moved
import Indentation.Proofs.Tree.Nested
import Indentation.Proofs.Tree.Reach
import Indentation.Proofs.Tree.Walks
import Indentation.Text.Basic
import Indentation.Text.Blank
import Indentation.Text.Digits
import Indentation.Text.Edit
import Indentation.Text.Invisible
import Indentation.Text.Letter
import Indentation.Text.Lines
import Indentation.Text.Quoted
import Indentation.Text.Range
import Indentation.Text.Ranges
import Indentation.Text.Rows
import Indentation.Text.Search
import Indentation.Token.Basic
import Indentation.Token.Lexeme
import Indentation.Token.Stream
import Indentation.Toml.Basic
import Indentation.Toml.Reader
import Indentation.Toml.Scalar
import Indentation.Tree.Cursor
import Indentation.Tree.Node
import Indentation.Tree.Outline
import Indentation.Tree.Walk
import Indentation.Proofs.Layout.Bounds
import Indentation.Proofs.Layout.Local
import Indentation.Proofs.Construct.Marks
import Indentation.Proofs.Construct.Brackets
import Indentation.Proofs.Lint.Brackets
import Indentation.Proofs.Lint.Aligned
import Indentation.Proofs.Text.Above
import Indentation.Proofs.Construct.Followed
import Indentation.Proofs.Lint.Progress
import Indentation.Proofs.Lint.Rounds
import Indentation.Proofs.Lint.Chain
import Indentation.Proofs.Lint.Limit
import Indentation.Proofs.Directive.InForce
import Indentation.Proofs.Token.Leaves
import Indentation.Proofs.Token.Literals
import Indentation.Proofs.Token.Mirrors
import Indentation.Proofs.Lint.Mirrored
import Indentation.Proofs.Text.Crlf
import Indentation.Proofs.Directive.Crlf
import Indentation.Proofs.Token.Crlf
import Indentation.Proofs.Lint.Crlf
import Indentation.Proofs.Text.Respelled
import Indentation.Proofs.Token.Respelled
import Indentation.Proofs.Lint.Respelled
import Indentation.Proofs.Config.Handling
import Indentation.Proofs.Diff.Patch
import Indentation.Proofs.Command.Shown
import Indentation.Proofs.Directive.Line
import Indentation.Proofs.Directive.Names
import Indentation.Proofs.Config.Table
import Indentation.Proofs.Config.Selection
import Indentation.Proofs.Layout.Chains
import Indentation.Proofs.Layout.Grouping
import Indentation.Proofs.Construct.Listed
import Indentation.Proofs.Lint.Chained
import Indentation.Proofs.Text.Partition
import Indentation.Proofs.Text.Weave
import Indentation.Proofs.Lint.Exact
import Indentation.Proofs.Lint.Switches
import Indentation.Proofs.Text.Places
import Indentation.Proofs.Token.LineStarts
import Indentation.Proofs.Token.Queries
import Indentation.Proofs.Layout.Steps
import Indentation.Proofs.Construct.Single
import Indentation.Proofs.Lint.SameLine
import Indentation.Proofs.Construct.Slots
import Indentation.Proofs.Directive.Written
import Indentation.Proofs.Text.Trim
import Indentation.Proofs.Directive.Pattern
