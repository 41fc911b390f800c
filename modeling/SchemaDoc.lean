import SchemaDoc.CommandLine
import SchemaDoc.Main
import SchemaDoc.Proofs.Composition.Ahead
import SchemaDoc.Proofs.Composition.Document
import SchemaDoc.Proofs.Excerpt
import SchemaDoc.Proofs.Failures.Source
import SchemaDoc.Proofs.Soundness.WellFormed
import SchemaDoc.Proofs.Spans
import SchemaDoc.Store.Disk
import SchemaDoc.Store.Memory
import SchemaDoc.Proofs.Text.Decimal
import SchemaDoc.Proofs.Number.Rounding
import SchemaDoc.Proofs.Data.Order
import SchemaDoc.Proofs.Tree.Rounded
import SchemaDoc.Proofs.Tree.Decoding
import SchemaDoc.Proofs.Descriptions
import SchemaDoc.Proofs.Pass.Output
import SchemaDoc.Proofs.Number.Shortest
import SchemaDoc.Proofs.Json.Number
import SchemaDoc.Proofs.Text.Utf8
import SchemaDoc.Proofs.Json.Grammar
import SchemaDoc.Proofs.Json.Reader
import SchemaDoc.Proofs.Json.Writing
import SchemaDoc.Proofs.Layout.Readable
import SchemaDoc.Proofs.Json.Document
import SchemaDoc.Proofs.Report
import SchemaDoc.Proofs.Pass.Reporting
import SchemaDoc.Proofs.Pass.Isolation
import SchemaDoc.Proofs.Pass.Attempts
import SchemaDoc.Proofs.Pass.Stopping
import SchemaDoc.Proofs.Literal.String
import SchemaDoc.Proofs.Layout.Adjacent
import SchemaDoc.Proofs.Progress.Production
import SchemaDoc.Proofs.Constancy
import SchemaDoc.Proofs.Syntax.Address
import SchemaDoc.Proofs.Tree.Tags
import SchemaDoc.Proofs.Traversal
import SchemaDoc.Proofs.Indentation
import SchemaDoc.Proofs.Summary
import SchemaDoc.Proofs.Number.Overflow
import SchemaDoc.Proofs.Tree.Gathering
import SchemaDoc.Proofs.Json.Infinite
import SchemaDoc.Proofs.Writing
import SchemaDoc.Proofs.Path
import SchemaDoc.Proofs.Uri
import SchemaDoc.Proofs.Store.Opening
import SchemaDoc.Proofs.Store.Reopening
import SchemaDoc.Proofs.Watch
import SchemaDoc.Proofs.Position
import SchemaDoc.Proofs.Trimming
import SchemaDoc.Proofs.Number.Nearest
import SchemaDoc.Proofs.Pass.Descriptions
import SchemaDoc.Proofs.Pass.Trees
import SchemaDoc.Proofs.Yaml.Document
