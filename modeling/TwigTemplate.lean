import TwigTemplate.Block
import TwigTemplate.CommandLine.Grammar
import TwigTemplate.CommandLine.Invocation
import TwigTemplate.CommandLine.Listing
import TwigTemplate.CommandLine.Reading
import TwigTemplate.CommandLine.Run
import TwigTemplate.Completion.Context
import TwigTemplate.Completion.Expansion
import TwigTemplate.Completion.Items
import TwigTemplate.Config.Basic
import TwigTemplate.Config.Read
import TwigTemplate.Diff.Compaction
import TwigTemplate.Diff.Hunk
import TwigTemplate.Diff.Line
import TwigTemplate.Diff.MiddleSnake
import TwigTemplate.Diff.Script
import TwigTemplate.Diff.Unified
import TwigTemplate.Editor.Edit
import TwigTemplate.Editor.Hover
import TwigTemplate.Editor.Mark
import TwigTemplate.Editor.Position
import TwigTemplate.Editor.Session
import TwigTemplate.Editor.Suggestion
import TwigTemplate.Element.Basic
import TwigTemplate.Element.Extent
import TwigTemplate.Element.Scan
import TwigTemplate.Failure
import TwigTemplate.FileTree.Basic
import TwigTemplate.FileTree.Resolve
import TwigTemplate.Fold.Basic
import TwigTemplate.Fold.Query
import TwigTemplate.Fold.Ranges
import TwigTemplate.Fold.Tracker
import TwigTemplate.Glob.Bracket
import TwigTemplate.Glob.Parse
import TwigTemplate.Glob.Pattern
import TwigTemplate.Ignore
import TwigTemplate.Layout.Depth
import TwigTemplate.Layout.Printer
import TwigTemplate.Layout.Protected
import TwigTemplate.Layout.Reformat
import TwigTemplate.Layout.Reindent
import TwigTemplate.Libraries.Basic
import TwigTemplate.Libraries.Standard
import TwigTemplate.Literal.Mask
import TwigTemplate.Literal.Split
import TwigTemplate.Literal.State
import TwigTemplate.Main
import TwigTemplate.Nesting
import TwigTemplate.Path
import TwigTemplate.Point
import TwigTemplate.Project.Basic
import TwigTemplate.Project.Formatting
import TwigTemplate.Project.Selection
import TwigTemplate.Project.Walk
import TwigTemplate.Proofs.CommandLine.Format
import TwigTemplate.Proofs.Element.Code
import TwigTemplate.Proofs.Element.Places
import TwigTemplate.Proofs.Element.Tags
import TwigTemplate.Proofs.FileTree
import TwigTemplate.Proofs.Fold.Agreement
import TwigTemplate.Proofs.Fold.Blocks
import TwigTemplate.Proofs.Fold.LeftOpen
import TwigTemplate.Proofs.Fold.Passes
import TwigTemplate.Proofs.Fold.Tracker
import TwigTemplate.Proofs.Layout.Again
import TwigTemplate.Proofs.Layout.Claiming
import TwigTemplate.Proofs.Layout.Counted
import TwigTemplate.Proofs.Layout.Ends
import TwigTemplate.Proofs.Layout.Heights
import TwigTemplate.Proofs.Layout.Kept
import TwigTemplate.Proofs.Layout.Levels
import TwigTemplate.Proofs.Layout.Passing
import TwigTemplate.Proofs.Layout.Printing
import TwigTemplate.Proofs.Layout.Reformatting
import TwigTemplate.Proofs.Layout.Reindented
import TwigTemplate.Proofs.Layout.Restoring
import TwigTemplate.Proofs.Layout.Rows
import TwigTemplate.Proofs.Layout.Settled
import TwigTemplate.Proofs.Layout.Skipping
import TwigTemplate.Proofs.Layout.Slots
import TwigTemplate.Proofs.Layout.Tagged
import TwigTemplate.Proofs.Layout.Weaving
import TwigTemplate.Proofs.Nesting
import TwigTemplate.Proofs.Point
import TwigTemplate.Proofs.Project.Formatting
import TwigTemplate.Proofs.Region.Agreement
import TwigTemplate.Proofs.Region.Extent
import TwigTemplate.Proofs.Region.LineEnds
import TwigTemplate.Proofs.Region.Ragged
import TwigTemplate.Proofs.Region.Tiling
import TwigTemplate.Proofs.Report.Causes
import TwigTemplate.Proofs.Report.Lines
import TwigTemplate.Proofs.Report.Pairing
import TwigTemplate.Proofs.Report.Reformatting
import TwigTemplate.Proofs.Report.Structure
import TwigTemplate.Proofs.Text.Marks
import TwigTemplate.Proofs.Text.Occurrences
import TwigTemplate.Region.Basic
import TwigTemplate.Region.Extent
import TwigTemplate.Region.Scan
import TwigTemplate.Region.Spacing
import TwigTemplate.Report.Analysis
import TwigTemplate.Report.Basic
import TwigTemplate.Report.Finding
import TwigTemplate.Report.Operator
import TwigTemplate.Shell.Filter
import TwigTemplate.Shell.Printer
import TwigTemplate.Shell.Program
import TwigTemplate.Shell.Run
import TwigTemplate.Shell.Script
import TwigTemplate.Statement
import TwigTemplate.Text.Blank
import TwigTemplate.Text.Json
import TwigTemplate.Text.Lines
import TwigTemplate.Text.Measure
import TwigTemplate.Text.Search
import TwigTemplate.Text.Word
import TwigTemplate.Toml.Document
import TwigTemplate.Toml.Quoted
import TwigTemplate.Toml.Scalar
import TwigTemplate.Toml.Value
import TwigTemplate.Vocabulary.Basic
import TwigTemplate.Vocabulary.Lookup
import TwigTemplate.Vocabulary.Names
import TwigTemplate.Vocabulary.Snippets
import TwigTemplate.Proofs.FileTree.Listing
import TwigTemplate.Proofs.Project.Walk
import TwigTemplate.Proofs.Project.Collecting
import TwigTemplate.Proofs.Project.Nested
import TwigTemplate.Proofs.Editor.Session
import TwigTemplate.Proofs.Editor.Formatting
import TwigTemplate.Proofs.Report.Options
import TwigTemplate.Proofs.Project.Cycles
import TwigTemplate.Proofs.Report.Appending
import TwigTemplate.Proofs.Report.Names
import TwigTemplate.Proofs.Text.Word
import TwigTemplate.Proofs.Literal
import TwigTemplate.Proofs.Region.Completing
import TwigTemplate.Proofs.Completion.Context
import TwigTemplate.Proofs.Completion.Snippets
import TwigTemplate.Proofs.Completion.Accepting
import TwigTemplate.Proofs.Region.Quoted
import TwigTemplate.Proofs.Region.Closing
import TwigTemplate.Proofs.Fold.Counting
import TwigTemplate.Proofs.Element.Appending
import TwigTemplate.Proofs.Fold.Local
import TwigTemplate.Proofs.Fold.Spans
import TwigTemplate.Proofs.Report.Assignments
import TwigTemplate.Proofs.Text.LineEndings
import TwigTemplate.Proofs.Report.LineEndings
import TwigTemplate.Proofs.Text.Relining
import TwigTemplate.Proofs.Element.Ahead
import TwigTemplate.Proofs.Element.Relining
import TwigTemplate.Proofs.Layout.Reprinting
import TwigTemplate.Proofs.Layout.IndentedAgain
import TwigTemplate.Proofs.Region.Quiet
import TwigTemplate.Proofs.Region.Alone
import TwigTemplate.Proofs.Layout.Gaps
import TwigTemplate.Proofs.Layout.Canonical
import TwigTemplate.Proofs.Text.Bytes
import TwigTemplate.Proofs.Element.Offsets
import TwigTemplate.Proofs.Element.Bumps
import TwigTemplate.Proofs.Text.Units
import TwigTemplate.Proofs.Editor.Position
import TwigTemplate.Proofs.Report.Regions
import TwigTemplate.Proofs.Editor.Mark
import TwigTemplate.Proofs.Editor.Hover
import TwigTemplate.Proofs.Completion.Expansion
import TwigTemplate.Proofs.Region.Fronts
import TwigTemplate.Proofs.Editor.Suggestion
import TwigTemplate.Proofs.Literal.Masking
import TwigTemplate.Proofs.Region.Lexemes
