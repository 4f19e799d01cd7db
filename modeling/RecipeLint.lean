import RecipeLint.Atom
import RecipeLint.Command
import RecipeLint.CommandLine.Arguments
import RecipeLint.CommandLine.Failure
import RecipeLint.CommandLine.FileTree
import RecipeLint.CommandLine.Options
import RecipeLint.CommandLine.Run
import RecipeLint.Config
import RecipeLint.Diagnostic
import RecipeLint.Finding
import RecipeLint.Json.Basic
import RecipeLint.Lexer
import RecipeLint.LineCheck
import RecipeLint.Main
import RecipeLint.Operator
import RecipeLint.Overlay
import RecipeLint.Overlay.Document
import RecipeLint.Proofs.Reading.Fits
import RecipeLint.Proofs.Text.Cuts
import RecipeLint.Quoting
import RecipeLint.Reference.Basic
import RecipeLint.Reference.MakeText
import RecipeLint.Reference.Modifier
import RecipeLint.Reference.Read
import RecipeLint.Reference.Reading
import RecipeLint.Reference.Spelling
import RecipeLint.Reference.WordTransform
import RecipeLint.Report.Counts
import RecipeLint.Report.Encode
import RecipeLint.Report.Format
import RecipeLint.Settings
import RecipeLint.ShellVariable
import RecipeLint.Source
import RecipeLint.Span
import RecipeLint.Span.Excerpt
import RecipeLint.Text.Basic
import RecipeLint.Text.Blank
import RecipeLint.Text.Lines
import RecipeLint.Text.Printable
import RecipeLint.Text.Quoted
import RecipeLint.Text.Utf8
import RecipeLint.Toml.Document
import RecipeLint.Toml.Quoted
import RecipeLint.Toml.Scalar
import RecipeLint.Toml.Value
import RecipeLint.TypeTable
import RecipeLint.TypeTable.Builtin
import RecipeLint.Use
import RecipeLint.VarType
import RecipeLint.Verdict
import RecipeLint.Word
import RecipeLint.Proofs.Reading.Source
import RecipeLint.Proofs.Lexer.Step
import RecipeLint.Proofs.Lexer.Tiling
import RecipeLint.Proofs.Lexer.States
import RecipeLint.Proofs.Reading.Fences
import RecipeLint.Proofs.Reading.Lookahead
import RecipeLint.Proofs.Lexer.Truncation
import RecipeLint.Proofs.Lexer.Resume
import RecipeLint.Proofs.Line.Order
import RecipeLint.Proofs.Line.Shift
import RecipeLint.Proofs.Line.Uses
import RecipeLint.Proofs.Lexer.Findings
import RecipeLint.Proofs.Line.Composition
import RecipeLint.Proofs.Reading.Scan
import RecipeLint.Proofs.Reading.Pace
import RecipeLint.Proofs.Reading.Balance
import RecipeLint.Proofs.Reading.Again
import RecipeLint.Proofs.Reading.Follow
import RecipeLint.Proofs.Reading.Shapes
import RecipeLint.Proofs.Reading.Reread
import RecipeLint.Proofs.Reading.Chain
import RecipeLint.Proofs.Reading.Body
import RecipeLint.Proofs.Reading.Members
import RecipeLint.Proofs.Reading.Canonical
import RecipeLint.Proofs.Reading.Shown
import RecipeLint.Proofs.Reading.Respell
import RecipeLint.Proofs.Lexer.References
import RecipeLint.Proofs.Lexer.DollarAhead
import RecipeLint.Proofs.Lexer.Replace
import RecipeLint.Proofs.Lexer.Causes
import RecipeLint.Proofs.Line.QuotingCauses
import RecipeLint.Proofs.Line.Respelled
import RecipeLint.Proofs.Line.QuotingFixes
import RecipeLint.Proofs.Line.WholeWords
import RecipeLint.Proofs.Reading.Braced
import RecipeLint.Proofs.Lexer.Backticks
import RecipeLint.Proofs.Lexer.Comments
import RecipeLint.Proofs.Line.Commands
import RecipeLint.Proofs.Line.Rendering
import RecipeLint.Proofs.Lexer.Continuation
import RecipeLint.Proofs.Reading.Picked
import RecipeLint.Proofs.Reading.Progress
import RecipeLint.Proofs.Lexer.Failures
import RecipeLint.Proofs.Line.Settings
import RecipeLint.Proofs.Line.Words
import RecipeLint.Proofs.Line.Assignments
import RecipeLint.Proofs.Line.Grouping
import RecipeLint.Proofs.Line.Partition
import RecipeLint.Proofs.Reading.Nested
import RecipeLint.Proofs.Lexer.Trees
import RecipeLint.Proofs.Reading.Log
import RecipeLint.Proofs.Reading.Logged
import RecipeLint.Proofs.Lexer.Repeats
import RecipeLint.Proofs.Reading.Styles
import RecipeLint.Proofs.Lexer.Styles
import RecipeLint.Proofs.Lexer.Descriptors
import RecipeLint.Proofs.Line.Values
import RecipeLint.Proofs.Lexer.ShellVariables
import RecipeLint.Proofs.Reading.Levels
import RecipeLint.Proofs.Lexer.Nesting
import RecipeLint.Proofs.Text.Lines
import RecipeLint.Proofs.Line.Sources
import RecipeLint.Proofs.Toml.Keys
import RecipeLint.Proofs.Config.Tables
import RecipeLint.Proofs.Config.Merging
import RecipeLint.Proofs.Text.Pieces
import RecipeLint.Proofs.Span.Locations
import RecipeLint.Proofs.Span.Excerpts
import RecipeLint.Proofs.Span.Blocks
import RecipeLint.Proofs.Reading.Quoted
import RecipeLint.Proofs.Reading.Arguments
