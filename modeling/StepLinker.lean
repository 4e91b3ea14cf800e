import StepLinker.Argument
import StepLinker.ArgumentType
import StepLinker.CommandLine.Command
import StepLinker.CommandLine.Help
import StepLinker.CommandLine.Word
import StepLinker.Declaration.Error
import StepLinker.Declaration.Item
import StepLinker.Declaration.Pattern
import StepLinker.Declaration.Segment
import StepLinker.Declaration.Specificity
import StepLinker.Definition
import StepLinker.Diagnostic
import StepLinker.Exit
import StepLinker.Failure
import StepLinker.FileTree
import StepLinker.Gherkin.Conversion
import StepLinker.Gherkin.Cursor
import StepLinker.Gherkin.Dialect
import StepLinker.Gherkin.Document
import StepLinker.Gherkin.Grammar
import StepLinker.Json.Reader
import StepLinker.Json.Value
import StepLinker.Keyed
import StepLinker.LinkResult
import StepLinker.LinkRun
import StepLinker.Linker
import StepLinker.Main
import StepLinker.Manifest
import StepLinker.Number.Binary64
import StepLinker.Number.Numeral
import StepLinker.Proofs.Declaration.Folding
import StepLinker.Proofs.Declaration.Grammar
import StepLinker.Proofs.Declaration.Instance
import StepLinker.Proofs.Declaration.Quoted
import StepLinker.Proofs.Declaration.Segmented
import StepLinker.Proofs.Declaration.Verdict
import StepLinker.Proofs.Gherkin.Position
import StepLinker.Proofs.Keyed
import StepLinker.Proofs.Linker.Binding
import StepLinker.Proofs.Linker.Coercion
import StepLinker.Proofs.Linker.Columns
import StepLinker.Proofs.Linker.Dependency
import StepLinker.Proofs.Linker.Diff
import StepLinker.Proofs.Linker.Frame
import StepLinker.Proofs.Linker.Linking
import StepLinker.Proofs.Linker.Order
import StepLinker.Proofs.Linker.RawText
import StepLinker.Proofs.Linker.Rebuild
import StepLinker.Proofs.Linker.Refresh
import StepLinker.Proofs.Linker.Rejection
import StepLinker.Proofs.Linker.RoundTrip
import StepLinker.Proofs.Linker.Tracking
import StepLinker.Proofs.Linker.Typing
import StepLinker.Proofs.Number.Numeral
import StepLinker.Proofs.SlotMap
import StepLinker.Proofs.SlotMap.FiniteMap
import StepLinker.Proofs.Statement.Cut
import StepLinker.Proofs.Statement.Escape
import StepLinker.Proofs.Statement.Gap
import StepLinker.Proofs.Statement.Layout
import StepLinker.Proofs.Statement.Pairing
import StepLinker.Proofs.Statement.Run
import StepLinker.Proofs.Statement.Separation
import StepLinker.Proofs.Statement.Slice
import StepLinker.Proofs.Text.LineIndex
import StepLinker.Proofs.Text.Lookup
import StepLinker.Proofs.Tree.Arguments
import StepLinker.Proofs.Tree.Beginning
import StepLinker.Proofs.Tree.Completion
import StepLinker.Proofs.Tree.Contents
import StepLinker.Proofs.Tree.Exact
import StepLinker.Proofs.Tree.Forest
import StepLinker.Proofs.Tree.Growth
import StepLinker.Proofs.Tree.Identity
import StepLinker.Proofs.Tree.Invariant
import StepLinker.Proofs.Tree.Leftmost
import StepLinker.Proofs.Tree.Lookup
import StepLinker.Proofs.Tree.Path
import StepLinker.Proofs.Tree.Ranking
import StepLinker.Proofs.Tree.Reading
import StepLinker.Proofs.Tree.Reuse
import StepLinker.Proofs.Tree.Shape
import StepLinker.Proofs.Tree.Walk
import StepLinker.Refresh
import StepLinker.Report
import StepLinker.Settings
import StepLinker.SlotMap
import StepLinker.Source
import StepLinker.Statement
import StepLinker.Statement.Lexeme
import StepLinker.Statement.Token
import StepLinker.Step
import StepLinker.StepType
import StepLinker.TestFile
import StepLinker.Text.Alphabetic
import StepLinker.Text.Blank
import StepLinker.Text.Bytes
import StepLinker.Text.LineIndex
import StepLinker.Text.Lines
import StepLinker.Text.Location
import StepLinker.Text.Numeric
import StepLinker.Text.Ranges
import StepLinker.Tree.Edge
import StepLinker.Tree.Forest
import StepLinker.Tree.MatchingTree
import StepLinker.Tree.Walk
import StepLinker.Wording.Language
import StepLinker.Wording.Locale
import StepLinker.Wording.Template
