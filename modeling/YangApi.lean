import YangApi.Alias
import YangApi.CommandLine.Request
import YangApi.CommandLine.Run
import YangApi.Config
import YangApi.Datum
import YangApi.Decode.Basic
import YangApi.Decode.Settled
import YangApi.Decode.Source
import YangApi.Definitions.Draft
import YangApi.Definitions.Property
import YangApi.Definitions.Shared
import YangApi.Definitions.Strategy
import YangApi.Definitions.Unpacked
import YangApi.Document.Basic
import YangApi.Document.Encode
import YangApi.Document.Model
import YangApi.Document.Operation
import YangApi.Failure
import YangApi.Generator
import YangApi.Json.Number
import YangApi.Json.Reader
import YangApi.Json.Source
import YangApi.Json.Text
import YangApi.Json.Writer
import YangApi.Main
import YangApi.Naming
import YangApi.Numeral
import YangApi.Restconf
import YangApi.Schema.Context
import YangApi.Schema.Decode.Leaf
import YangApi.Schema.Decode.Module
import YangApi.Schema.Decode.Node
import YangApi.Schema.Encode
import YangApi.Schema.Module
import YangApi.Schema.Node
import YangApi.Schema.Path
import YangApi.Segment
import YangApi.Storage.Basic
import YangApi.Storage.FileTree
import YangApi.Table
import YangApi.Text
import YangApi.Visit
import YangApi.Yaml.Cursor
import YangApi.Yaml.Graph
import YangApi.Yaml.Inline
import YangApi.Yaml.Lexer
import YangApi.Yaml.Literal
import YangApi.Yaml.Mark
import YangApi.Yaml.Node
import YangApi.Yaml.Plain
import YangApi.Yaml.Scalar
import YangApi.Yaml.Source
import YangApi.Yaml.Writer
import YangApi.Proofs.Naming
import YangApi.Proofs.Schema.Tree
import YangApi.Proofs.Schema.Uses
import YangApi.Proofs.Table
import YangApi.Proofs.Definitions.Growth
import YangApi.Proofs.Definitions.Build
import YangApi.Proofs.Definitions.Bare
import YangApi.Proofs.References
import YangApi.Proofs.Run
import YangApi.Proofs.Alias.Chains
import YangApi.Proofs.Alias.Collapse
import YangApi.Proofs.Alias.Stable
import YangApi.Proofs.Closure
import YangApi.Proofs.Alias.Expansion
import YangApi.Proofs.Alias.Meaning
import YangApi.Proofs.Definitions.Content
import YangApi.Proofs.Unpacked
import YangApi.Proofs.Agreement
import YangApi.Proofs.Schema.Lineage
import YangApi.Proofs.Schema.Inheritance
import YangApi.Proofs.Segment
import YangApi.Proofs.Traversal
import YangApi.Proofs.Restconf.Layout
import YangApi.Proofs.Restconf.Outline
import YangApi.Proofs.Restconf.Template
import YangApi.Proofs.Selection
import YangApi.Proofs.Restconf.Paths
import YangApi.Proofs.SingleLevel
import YangApi.Proofs.Definitions.Lookup
import YangApi.Proofs.Insertion
import YangApi.Proofs.Decode.Faithful
import YangApi.Proofs.Decode.Json
import YangApi.Proofs.Schema.Written
import YangApi.Proofs.Schema.Reload
import YangApi.Proofs.CamelCase
import YangApi.Proofs.Schema.Paths
import YangApi.Proofs.ModelNames
import YangApi.Proofs.Substring
import YangApi.Proofs.Restconf.Items
import YangApi.Proofs.Wrappers
import YangApi.Proofs.Wording
import YangApi.Proofs.Definitions.Addition
import YangApi.Proofs.Definitions.Recursion
import YangApi.Proofs.Required
import YangApi.Proofs.Restconf.Operations
import YangApi.Proofs.Restconf.Stamps
import YangApi.Proofs.Restconf.Tags
import YangApi.Proofs.Restconf.OperationIds
import YangApi.Proofs.Alias.Rewriting
import YangApi.Proofs.Alias.Dangling
import YangApi.Proofs.Definitions.Parts
import YangApi.Proofs.Fallback
import YangApi.Proofs.ReadOnly
import YangApi.Proofs.Alias.Compositions
import YangApi.Proofs.Candidates
import YangApi.Proofs.Priming
import YangApi.Proofs.Instances
import YangApi.Proofs.Schema.Refusal
import YangApi.Proofs.Definitions.RequiredNames
import YangApi.Proofs.Alias.Walk
import YangApi.Proofs.Runs
import YangApi.Proofs.Definitions.Legible
import YangApi.Proofs.DefinitionNames
