import JoinGraph.Association
import JoinGraph.Binary64
import JoinGraph.Binary64.Shortest
import JoinGraph.Binding
import JoinGraph.Catalog
import JoinGraph.Catalog.Load
import JoinGraph.Config
import JoinGraph.Decode
import JoinGraph.Dependency
import JoinGraph.Diagnostic
import JoinGraph.Diagnostic.Codec
import JoinGraph.Error
import JoinGraph.Expansion
import JoinGraph.Expansion.Log
import JoinGraph.Expr
import JoinGraph.Expr.Codec
import JoinGraph.Expr.Walk
import JoinGraph.FileTree
import JoinGraph.Json
import JoinGraph.Json.Read
import JoinGraph.Json.Write
import JoinGraph.Liveness
import JoinGraph.Log
import JoinGraph.Name
import JoinGraph.Pass
import JoinGraph.Preload
import JoinGraph.Preload.Codec
import JoinGraph.Proofs.Blog
import JoinGraph.Proofs.Catalog
import JoinGraph.Proofs.Catalog.Declarations
import JoinGraph.Proofs.Catalog.Exact
import JoinGraph.Proofs.Catalog.Merge
import JoinGraph.Proofs.Codec.Checking
import JoinGraph.Proofs.Codec.Edits
import JoinGraph.Proofs.Codec.Reading
import JoinGraph.Proofs.Codec.Refusals
import JoinGraph.Proofs.Codec.RoundTrip
import JoinGraph.Proofs.Correspondence
import JoinGraph.Proofs.Dangling
import JoinGraph.Proofs.Dependency
import JoinGraph.Proofs.Expansion
import JoinGraph.Proofs.Expansion.Faithful
import JoinGraph.Proofs.Expansion.Faults
import JoinGraph.Proofs.Expansion.Joins
import JoinGraph.Proofs.Expansion.Laws
import JoinGraph.Proofs.Expansion.Pruned
import JoinGraph.Proofs.Expansion.Repeat
import JoinGraph.Proofs.Expansion.Shape
import JoinGraph.Proofs.Expansion.Survival
import JoinGraph.Proofs.Expansion.Visits
import JoinGraph.Proofs.FirstFault
import JoinGraph.Proofs.Integrity
import JoinGraph.Proofs.Lineage
import JoinGraph.Proofs.Liveness
import JoinGraph.Proofs.Mention
import JoinGraph.Proofs.Pass
import JoinGraph.Proofs.Pass.Arrangement
import JoinGraph.Proofs.Preload.Algebra
import JoinGraph.Proofs.Preload.Chains
import JoinGraph.Proofs.Preload.Merge
import JoinGraph.Proofs.Provenance
import JoinGraph.Proofs.Pruning
import JoinGraph.Proofs.Pruning.DeadEdits
import JoinGraph.Proofs.Pruning.Exact
import JoinGraph.Proofs.Reachability
import JoinGraph.Proofs.Registry
import JoinGraph.Proofs.Registry.Laws
import JoinGraph.Proofs.Removal
import JoinGraph.Proofs.Removal.Uses
import JoinGraph.Proofs.Restriction
import JoinGraph.Proofs.Run
import JoinGraph.Proofs.Spec
import JoinGraph.Proofs.Spec.Writing
import JoinGraph.Proofs.Walk
import JoinGraph.Proofs.WellFormed
import JoinGraph.Qualifier
import JoinGraph.Query
import JoinGraph.Query.Build
import JoinGraph.Query.Codec
import JoinGraph.Query.SameValue
import JoinGraph.Query.Uses
import JoinGraph.Query.WellFormed
import JoinGraph.Registry
import JoinGraph.Registry.Log
import JoinGraph.Schema
import JoinGraph.Schema.Codec
import JoinGraph.Spec
import JoinGraph.Spec.Text
import JoinGraph.Value
import JoinGraph.Vocabulary
import JoinGraph.Yaml.Cursor
import JoinGraph.Yaml.Document
import JoinGraph.Yaml.Node
import JoinGraph.Yaml.Reference
import JoinGraph.Yaml.Scalar.Block
import JoinGraph.Yaml.Scalar.Gap
import JoinGraph.Yaml.Scalar.Plain
import JoinGraph.Yaml.Scalar.Quoted
import JoinGraph.Yaml.Tag
import JoinGraph.Yaml.Token
import JoinGraph.Yaml.Token.Scan
import JoinGraph.Yaml.Token.Tag
import JoinGraph.Yaml.Typed
import JoinGraph.Yaml.Untyped
