import StyleVars.Cache
import StyleVars.Catalog.Basic
import StyleVars.Catalog.Index
import StyleVars.Color.Basic
import StyleVars.Color.Keyword
import StyleVars.Color.Reader
import StyleVars.Command
import StyleVars.Decimal.BinaryFraction
import StyleVars.Decimal.Fixed
import StyleVars.Decimal.Numeral
import StyleVars.Decimal.Shortest
import StyleVars.Diagnostic.Basic
import StyleVars.Diagnostic.Check
import StyleVars.Diagnostic.Report
import StyleVars.Files.Disk
import StyleVars.Files.Snapshot
import StyleVars.Files.Store
import StyleVars.Glob.Basic
import StyleVars.Glob.Compiler
import StyleVars.Glob.Match
import StyleVars.Glob.Reader
import StyleVars.Glob.Set
import StyleVars.Json.Basic
import StyleVars.Json.Printer
import StyleVars.Json.Reader
import StyleVars.Main
import StyleVars.Naming.EditDistance
import StyleVars.Naming.Similar
import StyleVars.Naming.Suggestion
import StyleVars.Path.Basic
import StyleVars.Path.Filter
import StyleVars.Proofs.Catalog.Consistency
import StyleVars.Proofs.Catalog.Update
import StyleVars.Proofs.Diagnostic.Undefined
import StyleVars.Proofs.Files.Store
import StyleVars.Proofs.Index.Contents
import StyleVars.Proofs.Index.Interleaving
import StyleVars.Proofs.Index.Scan
import StyleVars.Proofs.Index.Site
import StyleVars.Proofs.Path.Normal
import StyleVars.Proofs.Resolution.Resolver
import StyleVars.Proofs.Sheet.Order
import StyleVars.Proofs.Text.Excerpt
import StyleVars.Proofs.Workspace.Answers
import StyleVars.Proofs.Workspace.History
import StyleVars.Proofs.Workspace.Session
import StyleVars.Resolution.Basic
import StyleVars.Resolution.Resolver
import StyleVars.Settings.Basic
import StyleVars.Settings.Reader
import StyleVars.Settings.Severity
import StyleVars.Sheet.Basic
import StyleVars.Sheet.Block
import StyleVars.Sheet.Comment
import StyleVars.Sheet.Problem
import StyleVars.Sheet.Reader
import StyleVars.Text.Blank
import StyleVars.Text.Digit
import StyleVars.Text.Excerpt
import StyleVars.Text.Letter
import StyleVars.Text.Lines
import StyleVars.Text.Name
import StyleVars.Text.Nesting
import StyleVars.Text.Split
import StyleVars.Text.Word
import StyleVars.Value.Literal
import StyleVars.Value.Reference
import StyleVars.Value.Token
import StyleVars.Watch.Debounce
import StyleVars.Watch.Event
import StyleVars.Watch.Inbox
import StyleVars.Workspace.Basic
import StyleVars.Workspace.Notice
import StyleVars.Workspace.Project
import StyleVars.Workspace.Request
import StyleVars.Workspace.Session
import StyleVars.Proofs.Index.Exclusion
import StyleVars.Proofs.Resolution.Outcome
import StyleVars.Proofs.Workspace.Uncached
import StyleVars.Proofs.Sheet.Comment
import StyleVars.Proofs.Text.Name
import StyleVars.Proofs.Value.Reference
import StyleVars.Proofs.Value.Token
import StyleVars.Proofs.Sheet.Block
import StyleVars.Proofs.Sheet.Position
import StyleVars.Proofs.Sheet.Brace
import StyleVars.Proofs.Sheet.Layout
import StyleVars.Proofs.Watch.Coalesce
import StyleVars.Proofs.Workspace.Burst
import StyleVars.Proofs.Sheet.Shift
import StyleVars.Proofs.Text.Lines
import StyleVars.Proofs.Sheet.Seam
import StyleVars.Proofs.Sheet.Append
import StyleVars.Proofs.Index.Completion
import StyleVars.Proofs.Value.Occurrence
import StyleVars.Proofs.Resolution.Walk
import StyleVars.Proofs.Resolution.Composition
import StyleVars.Proofs.Resolution.Substitution
import StyleVars.Proofs.Index.Ownership
import StyleVars.Proofs.Value.Leftmost
import StyleVars.Proofs.Sheet.Blanked
import StyleVars.Proofs.Sheet.Survey
import StyleVars.Proofs.Naming.EditDistance
import StyleVars.Proofs.Decimal.Rounding
import StyleVars.Proofs.Decimal.Arithmetic
import StyleVars.Proofs.Diagnostic.Offer
import StyleVars.Proofs.Path.Location
import StyleVars.Proofs.Naming.Quotient
import StyleVars.Proofs.Naming.Similar
import StyleVars.Proofs.Naming.Suggestion
import StyleVars.Proofs.Settings.Checked
import StyleVars.Proofs.Watch.Batch
import StyleVars.Proofs.Value.Literal
import StyleVars.Proofs.Value.Nested
import StyleVars.Proofs.Sheet.Overlap
import StyleVars.Proofs.Text.Position
import StyleVars.Proofs.Diagnostic.Duplicate
import StyleVars.Proofs.Workspace.Settings
import StyleVars.Proofs.Path.Order
import StyleVars.Proofs.Diagnostic.Report
import StyleVars.Proofs.Color.Hex
import StyleVars.Proofs.Value.Division
import StyleVars.Proofs.Value.Tokenization
import StyleVars.Proofs.Sheet.Segment
import StyleVars.Proofs.Workspace.Key
