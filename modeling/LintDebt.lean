import LintDebt.Blanket
import LintDebt.Cli.Arguments
import LintDebt.Cli.Rehearsal
import LintDebt.Cli.Run
import LintDebt.Fault
import LintDebt.FileTree.Access
import LintDebt.FileTree.Basic
import LintDebt.FileTree.Canonical
import LintDebt.FileTree.Walk
import LintDebt.Glob.Pattern
import LintDebt.Glob.Search
import LintDebt.IgnoreList
import LintDebt.Job
import LintDebt.Json.Reader
import LintDebt.Json.Shown
import LintDebt.Json.Value
import LintDebt.Json.Writer
import LintDebt.Linter.Basic
import LintDebt.Linter.Reports
import LintDebt.Linter.Stylelint
import LintDebt.Log.Line
import LintDebt.Log.Placeholder
import LintDebt.Log.Record
import LintDebt.Log.Template
import LintDebt.Main
import LintDebt.Number.Binary64
import LintDebt.Number.Numeral
import LintDebt.Number.Rounded
import LintDebt.Number.Written
import LintDebt.Outcome
import LintDebt.Path
import LintDebt.Proofs.Blanket
import LintDebt.Proofs.Blanket.Grammar
import LintDebt.Proofs.Call
import LintDebt.Proofs.Distinct
import LintDebt.Proofs.Ending
import LintDebt.Proofs.Except
import LintDebt.Proofs.Faults
import LintDebt.Proofs.FileTree.Arrivals
import LintDebt.Proofs.FileTree.Canonical
import LintDebt.Proofs.FileTree.Cleared
import LintDebt.Proofs.FileTree.Climbing
import LintDebt.Proofs.FileTree.Contents
import LintDebt.Proofs.FileTree.Entries
import LintDebt.Proofs.FileTree.EntryPaths
import LintDebt.Proofs.FileTree.JoinedText
import LintDebt.Proofs.FileTree.Linkless
import LintDebt.Proofs.FileTree.Moves
import LintDebt.Proofs.FileTree.Named
import LintDebt.Proofs.FileTree.Nodes
import LintDebt.Proofs.FileTree.PathText
import LintDebt.Proofs.FileTree.Refusals
import LintDebt.Proofs.FileTree.Settling
import LintDebt.Proofs.FileTree.Shapes
import LintDebt.Proofs.FileTree.Straight
import LintDebt.Proofs.FileTree.Walks
import LintDebt.Proofs.Glob.Below
import LintDebt.Proofs.Glob.DirectoryLine
import LintDebt.Proofs.Glob.Expanding
import LintDebt.Proofs.Glob.Found
import LintDebt.Proofs.Glob.Resolving
import LintDebt.Proofs.Glob.Shapes
import LintDebt.Proofs.IgnoreList
import LintDebt.Proofs.IgnoreList.Flattening
import LintDebt.Proofs.IgnoreList.ReadBack
import LintDebt.Proofs.Json.Readable
import LintDebt.Proofs.Json.RoundTrip
import LintDebt.Proofs.Json.Scalars
import LintDebt.Proofs.Keyed
import LintDebt.Proofs.Linter.Configuration
import LintDebt.Proofs.Linter.Launching
import LintDebt.Proofs.Linter.Reports
import LintDebt.Proofs.Linter.Sources
import LintDebt.Proofs.Query.Answering
import LintDebt.Proofs.Query.Asking
import LintDebt.Proofs.Query.HiddenPath
import LintDebt.Proofs.Query.Hiding
import LintDebt.Proofs.Query.Keeping
import LintDebt.Proofs.Query.Occupied
import LintDebt.Proofs.Query.Restoring
import LintDebt.Proofs.Query.Showing
import LintDebt.Proofs.Query.Transparency
import LintDebt.Proofs.Query.WhileHidden
import LintDebt.Proofs.Settings
import LintDebt.Proofs.Suppression.Brackets
import LintDebt.Proofs.Suppression.Buffer
import LintDebt.Proofs.Suppression.Counter
import LintDebt.Proofs.Suppression.Gathering
import LintDebt.Proofs.Suppression.Grouping
import LintDebt.Proofs.Suppression.Interleaving
import LintDebt.Proofs.Suppression.Layout
import LintDebt.Proofs.Suppression.Leading
import LintDebt.Proofs.Suppression.Placement
import LintDebt.Proofs.Suppression.Plan
import LintDebt.Proofs.Suppression.Silencing
import LintDebt.Proofs.Text.Decoding
import LintDebt.Proofs.Text.Joined
import LintDebt.Proofs.Text.Lines
import LintDebt.Proofs.Text.Octets
import LintDebt.Proofs.Text.Tidy
import LintDebt.Proofs.Text.Trim
import LintDebt.Proofs.Text.Units
import LintDebt.Proofs.Text.Utf8
import LintDebt.Proofs.TextFile
import LintDebt.Proofs.TextFile.Readers
import LintDebt.Proofs.Violation
import LintDebt.Proofs.Workflow.AbortedCompression
import LintDebt.Proofs.Workflow.Accounts
import LintDebt.Proofs.Workflow.Annotating
import LintDebt.Proofs.Workflow.Compressed
import LintDebt.Proofs.Workflow.CompressedFirst
import LintDebt.Proofs.Workflow.CompressedTwice
import LintDebt.Proofs.Workflow.Compressing
import LintDebt.Proofs.Workflow.Compression
import LintDebt.Proofs.Workflow.Counting
import LintDebt.Proofs.Workflow.Eliminating
import LintDebt.Proofs.Workflow.Elimination
import LintDebt.Proofs.Workflow.ErrorsKept
import LintDebt.Proofs.Workflow.Examine
import LintDebt.Proofs.Workflow.FileByFile
import LintDebt.Proofs.Workflow.Independence
import LintDebt.Proofs.Workflow.KeptOpen
import LintDebt.Proofs.Workflow.ListKept
import LintDebt.Proofs.Workflow.NothingDropped
import LintDebt.Proofs.Workflow.OwnPieces
import LintDebt.Proofs.Workflow.Rating
import LintDebt.Proofs.Workflow.Sample
import LintDebt.Proofs.Workflow.Stage
import LintDebt.Proofs.Workflow.Surveying
import LintDebt.Proofs.Workflow.Tally
import LintDebt.Proofs.Workflow.Telling
import LintDebt.Proofs.Workflow.Unforeseen
import LintDebt.Proofs.Workflow.WrittenBack
import LintDebt.Query
import LintDebt.Schema
import LintDebt.Settings
import LintDebt.Suppression.Comment
import LintDebt.Suppression.Page
import LintDebt.Suppression.Plan
import LintDebt.Text.Blank
import LintDebt.Text.Digit
import LintDebt.Text.Lines
import LintDebt.Text.Printable
import LintDebt.Text.Quoted
import LintDebt.Text.Units
import LintDebt.Text.Utf8
import LintDebt.TextFile
import LintDebt.Toml.Reader
import LintDebt.Toml.Scalar
import LintDebt.Toml.Value
import LintDebt.ToolError
import LintDebt.Violation
import LintDebt.Workflow.Compress
import LintDebt.Workflow.Eliminate
import LintDebt.Workflow.Stage
