import SchemaGraph.Bytes.Basic
import SchemaGraph.Bytes.Deflate
import SchemaGraph.Bytes.Gzip
import SchemaGraph.Bytes.Sha256
import SchemaGraph.CommandLine
import SchemaGraph.CommandLine.Arguments
import SchemaGraph.CommandLine.Command
import SchemaGraph.Document
import SchemaGraph.Extraction
import SchemaGraph.Extraction.Classification
import SchemaGraph.Extraction.Conventions
import SchemaGraph.Extraction.Discovery
import SchemaGraph.Extraction.Introspection
import SchemaGraph.Extraction.Registry
import SchemaGraph.Extraction.Script
import SchemaGraph.Files.FileSystem
import SchemaGraph.Files.FileTree
import SchemaGraph.Files.Path
import SchemaGraph.Interning
import SchemaGraph.Json.Reader
import SchemaGraph.Json.Text
import SchemaGraph.Json.Value
import SchemaGraph.Library
import SchemaGraph.Library.Inventory
import SchemaGraph.Library.Settings
import SchemaGraph.Main
import SchemaGraph.Merge
import SchemaGraph.Merge.Plan
import SchemaGraph.Merge.Shape
import SchemaGraph.Model.Cache
import SchemaGraph.Model.Encoding
import SchemaGraph.Model.Field
import SchemaGraph.Module.Declaration
import SchemaGraph.Module.Encoding
import SchemaGraph.Module.Index
import SchemaGraph.Module.TypeRef
import SchemaGraph.Outline
import SchemaGraph.Proofs.Bytes.Lossless
import SchemaGraph.Proofs.CommandLine
import SchemaGraph.Proofs.Decoding
import SchemaGraph.Proofs.Extraction.Aborting
import SchemaGraph.Proofs.Extraction.Agreement
import SchemaGraph.Proofs.Extraction.Coherence
import SchemaGraph.Proofs.Extraction.Completion
import SchemaGraph.Proofs.Extraction.Components
import SchemaGraph.Proofs.Extraction.Definitions
import SchemaGraph.Proofs.Extraction.Discovery
import SchemaGraph.Proofs.Extraction.Failures
import SchemaGraph.Proofs.Extraction.Fidelity
import SchemaGraph.Proofs.Extraction.Flattening
import SchemaGraph.Proofs.Extraction.Histories
import SchemaGraph.Proofs.Extraction.Inspection
import SchemaGraph.Proofs.Extraction.Laws
import SchemaGraph.Proofs.Extraction.Making
import SchemaGraph.Proofs.Extraction.Names
import SchemaGraph.Proofs.Extraction.Placeholders
import SchemaGraph.Proofs.Extraction.Questions
import SchemaGraph.Proofs.Extraction.Reachability
import SchemaGraph.Proofs.Extraction.Relocation
import SchemaGraph.Proofs.Extraction.Replays
import SchemaGraph.Proofs.Extraction.Requests
import SchemaGraph.Proofs.Extraction.Resolvers
import SchemaGraph.Proofs.Extraction.Runs
import SchemaGraph.Proofs.Extraction.Session
import SchemaGraph.Proofs.Extraction.Termination
import SchemaGraph.Proofs.Extraction.Tracing
import SchemaGraph.Proofs.Extraction.Wrappers
import SchemaGraph.Proofs.Files.Canonical
import SchemaGraph.Proofs.Files.Siblings
import SchemaGraph.Proofs.Files.Trees
import SchemaGraph.Proofs.Json.Exact
import SchemaGraph.Proofs.Json.Text
import SchemaGraph.Proofs.Json.Tokens
import SchemaGraph.Proofs.Library.Comparison
import SchemaGraph.Proofs.Library.Decoding
import SchemaGraph.Proofs.Library.Interleaving
import SchemaGraph.Proofs.Library.Inventory
import SchemaGraph.Proofs.Library.LoadOrder
import SchemaGraph.Proofs.Library.Loads
import SchemaGraph.Proofs.Library.Opening
import SchemaGraph.Proofs.Library.Reopening
import SchemaGraph.Proofs.Library.Workers
import SchemaGraph.Proofs.Merge.Associativity
import SchemaGraph.Proofs.Merge.Interning
import SchemaGraph.Proofs.Merge.Lookups
import SchemaGraph.Proofs.Merge.Matching
import SchemaGraph.Proofs.Merge.NormalForm
import SchemaGraph.Proofs.Merge.Overwriting
import SchemaGraph.Proofs.Merge.Plan
import SchemaGraph.Proofs.Merge.Reconciliation
import SchemaGraph.Proofs.Merge.Repetition
import SchemaGraph.Proofs.Merge.Soundness
import SchemaGraph.Proofs.Merge.Tables
import SchemaGraph.Proofs.Merge.Unfolding
import SchemaGraph.Proofs.Merge.Variants
import SchemaGraph.Proofs.Model.Arena
import SchemaGraph.Proofs.Model.Decoding
import SchemaGraph.Proofs.Model.Documents
import SchemaGraph.Proofs.Model.FieldTree
import SchemaGraph.Proofs.Module.Agreement
import SchemaGraph.Proofs.Module.Ancestry
import SchemaGraph.Proofs.Module.Assignability
import SchemaGraph.Proofs.Module.Decoding
import SchemaGraph.Proofs.Module.Expansion
import SchemaGraph.Proofs.Module.Inheritance
import SchemaGraph.Proofs.Module.Lookup
import SchemaGraph.Proofs.Module.SubtypeTable
import SchemaGraph.Proofs.Module.Walks
import SchemaGraph.Proofs.Navigation
import SchemaGraph.Proofs.Outline
import SchemaGraph.Proofs.Outline.Depth
import SchemaGraph.Proofs.Outline.Places
import SchemaGraph.Proofs.Query
import SchemaGraph.Proofs.SortedMap
import SchemaGraph.Proofs.Spelling
import SchemaGraph.Proofs.Store.Decoding
import SchemaGraph.Proofs.Store.Documents
import SchemaGraph.Proofs.Store.Extracted
import SchemaGraph.Proofs.Store.Forms
import SchemaGraph.Proofs.Store.Persistence
import SchemaGraph.Proofs.Store.Steps
import SchemaGraph.Proofs.Store.Transparency
import SchemaGraph.Proofs.Text.Segment
import SchemaGraph.Proofs.Validation
import SchemaGraph.Proofs.Violations
import SchemaGraph.Query
import SchemaGraph.Report
import SchemaGraph.SortedMap
import SchemaGraph.Store
import SchemaGraph.Store.Failure
import SchemaGraph.Store.Fingerprint
import SchemaGraph.Store.Loading
import SchemaGraph.Store.Persisted
import SchemaGraph.Text.Segment
import SchemaGraph.Validation
import SchemaGraph.Yaml.Character
import SchemaGraph.Yaml.Cursor
import SchemaGraph.Yaml.Node
import SchemaGraph.Yaml.Plain
import SchemaGraph.Yaml.Scalar
import SchemaGraph.Yaml.Spot
import SchemaGraph.Yaml.Tag
import SchemaGraph.Yaml.Text
import SchemaGraph.Yaml.Token
