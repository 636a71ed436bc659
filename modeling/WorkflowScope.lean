import WorkflowScope.Command.Bridge
import WorkflowScope.Command.Provider
import WorkflowScope.Command.Range
import WorkflowScope.CommandLine.Arguments
import WorkflowScope.CommandLine.Failure
import WorkflowScope.CommandLine.Json
import WorkflowScope.CommandLine.Run
import WorkflowScope.CommandLine.Usage
import WorkflowScope.Config
import WorkflowScope.Config.File
import WorkflowScope.Diagnostics.Store
import WorkflowScope.Editor.Document
import WorkflowScope.Editor.Session
import WorkflowScope.Editor.Workbench
import WorkflowScope.File.Fault
import WorkflowScope.File.Load
import WorkflowScope.File.Tree
import WorkflowScope.KeyPath.Basic
import WorkflowScope.KeyPath.Parse
import WorkflowScope.Lint.Finding
import WorkflowScope.Lint.Wellformed
import WorkflowScope.Main
import WorkflowScope.Path.Basic
import WorkflowScope.Path.Glob
import WorkflowScope.Path.Repository
import WorkflowScope.Path.Selector
import WorkflowScope.Path.Table
import WorkflowScope.Query.Collect
import WorkflowScope.Query.Element
import WorkflowScope.Query.Locate
import WorkflowScope.Text.Hex
import WorkflowScope.Text.LineIndex
import WorkflowScope.Text.Lines
import WorkflowScope.Text.Span
import WorkflowScope.Text.Utf8
import WorkflowScope.Text.Whitespace
import WorkflowScope.Text.Word
import WorkflowScope.Toml.Document
import WorkflowScope.Toml.Number
import WorkflowScope.Toml.Text
import WorkflowScope.Toml.Value
import WorkflowScope.Toml.Write
import WorkflowScope.Tree.Compose
import WorkflowScope.Tree.Extent
import WorkflowScope.Tree.Node
import WorkflowScope.Tree.Snapshot
import WorkflowScope.Yaml.Alphabet
import WorkflowScope.Yaml.Cursor
import WorkflowScope.Yaml.Directive
import WorkflowScope.Yaml.Event
import WorkflowScope.Yaml.Fault
import WorkflowScope.Yaml.Grammar
import WorkflowScope.Yaml.Layout
import WorkflowScope.Yaml.Mark
import WorkflowScope.Yaml.Scalar.Block
import WorkflowScope.Yaml.Scalar.Plain
import WorkflowScope.Yaml.Scalar.Quoted
import WorkflowScope.Yaml.Tag
import WorkflowScope.Yaml.Token
import WorkflowScope.Yaml.Tokenize
import WorkflowScope.Proofs.Path.Table
import WorkflowScope.Proofs.Command.Lines
import WorkflowScope.Proofs.Command.PointQuery
import WorkflowScope.Proofs.Diagnostics.Schedule
import WorkflowScope.Proofs.Diagnostics.Staleness
import WorkflowScope.Proofs.Tree.Compose
import WorkflowScope.Proofs.Tree.Snapshot
import WorkflowScope.Proofs.KeyPath.RoundTrip
import WorkflowScope.Proofs.Query.Enumeration
import WorkflowScope.Proofs.Tree.Outline
import WorkflowScope.Proofs.KeyPath.Grammar
import WorkflowScope.Proofs.Command.Registration
import WorkflowScope.Proofs.Diagnostics.Contents
import WorkflowScope.Proofs.Text.Floor
import WorkflowScope.Proofs.Tree.Indicated
import WorkflowScope.Proofs.Diagnostics.Independence
import WorkflowScope.Proofs.Query.Caret
import WorkflowScope.Proofs.Command.BlockLines
import WorkflowScope.Proofs.KeyPath.Failures
import WorkflowScope.Proofs.KeyPath.RootMarker
import WorkflowScope.Proofs.Lint.Duplicates
import WorkflowScope.Proofs.Tree.Scanning
import WorkflowScope.Proofs.Tree.Balanced
import WorkflowScope.Proofs.Path.Fitting
import WorkflowScope.Proofs.Path.Log
import WorkflowScope.Proofs.Tree.BlockEnds
import WorkflowScope.Proofs.Tree.PlainEnds
import WorkflowScope.Proofs.Tree.Overlaps
import WorkflowScope.Proofs.Tree.QuotedEnds
import WorkflowScope.Proofs.Lint.ErrorLines
