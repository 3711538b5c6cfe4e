import TraversalSql.Block
import TraversalSql.Compile
import TraversalSql.Document
import TraversalSql.Document.Json
import TraversalSql.Document.Yaml
import TraversalSql.Document.Yaml.Character
import TraversalSql.Document.Yaml.Gap
import TraversalSql.Document.Yaml.Token
import TraversalSql.Emission
import TraversalSql.Emission.Column
import TraversalSql.Emission.Condition
import TraversalSql.Emission.Error
import TraversalSql.Emission.Fold
import TraversalSql.Emission.JoinPath
import TraversalSql.Emission.Members
import TraversalSql.Emission.Recursion
import TraversalSql.Emission.Scope
import TraversalSql.FilterOperator
import TraversalSql.Location
import TraversalSql.OrderedMap
import TraversalSql.Proofs.Assembly
import TraversalSql.Proofs.Binding
import TraversalSql.Proofs.BoundVertices
import TraversalSql.Proofs.ColumnNames
import TraversalSql.Proofs.ColumnReads
import TraversalSql.Proofs.Condition
import TraversalSql.Proofs.CycleGuard
import TraversalSql.Proofs.FilterPlacement
import TraversalSql.Proofs.Layout
import TraversalSql.Proofs.Matching
import TraversalSql.Proofs.Naming
import TraversalSql.Proofs.Outcome
import TraversalSql.Proofs.OptionalMatches
import TraversalSql.Proofs.OuterJoins
import TraversalSql.Proofs.Pattern
import TraversalSql.Proofs.PatternReading
import TraversalSql.Proofs.PatternTree
import TraversalSql.Proofs.Provenance
import TraversalSql.Proofs.Reading
import TraversalSql.Proofs.ScopeNesting
import TraversalSql.Proofs.Scopes
import TraversalSql.Proofs.Scoping
import TraversalSql.Proofs.Semantics
import TraversalSql.Proofs.Supply
import TraversalSql.Proofs.TraversalMeaning
import TraversalSql.Query
import TraversalSql.Query.Blocks
import TraversalSql.Query.Interchange
import TraversalSql.QueryError
import TraversalSql.QueryTree
import TraversalSql.QueryTree.Scope
import TraversalSql.Schema
import TraversalSql.Schema.Definition
import TraversalSql.Schema.Edge
import TraversalSql.Schema.Error
import TraversalSql.Schema.Interchange
import TraversalSql.Schema.Table
import TraversalSql.Settings
import TraversalSql.Sql.Alias
import TraversalSql.Sql.Dialect
import TraversalSql.Sql.Expr
import TraversalSql.Sql.Interchange
import TraversalSql.Sql.Printer
import TraversalSql.Sql.Statement
import TraversalSql.Target
import TraversalSql.Text.Blank
import TraversalSql.Text.Digits
import TraversalSql.Text.Numeral
import TraversalSql.Walk
import TraversalSql.Proofs.ScopeFlags
import TraversalSql.Proofs.Reachability
import TraversalSql.Proofs.TableCapture
import TraversalSql.Proofs.Grouping
import TraversalSql.Proofs.FoldMeaning
import TraversalSql.Proofs.FoldFlags
import TraversalSql.Proofs.RecursionTypes
import TraversalSql.Proofs.DeclaredColumns
import TraversalSql.Proofs.Resolution
import TraversalSql.Proofs.Completeness
import TraversalSql.Proofs.EmissionErrors
import TraversalSql.Proofs.AssemblyFaults
import TraversalSql.Proofs.TreeShape
import TraversalSql.Proofs.DialectIndependence
import TraversalSql.Proofs.Placeholders
import TraversalSql.Proofs.FilterParameters
import TraversalSql.Proofs.ParameterManifest
import TraversalSql.Proofs.WalkPosition
import TraversalSql.Proofs.ColumnClashes
import TraversalSql.Proofs.QueryDocuments
import TraversalSql.Proofs.ScopeWalks
import TraversalSql.Proofs.ScopePartition
import TraversalSql.Proofs.FreshNames
import TraversalSql.Proofs.WalkCalls
import TraversalSql.Proofs.EdgeCrossings
import TraversalSql.Proofs.ConditionReading
import TraversalSql.Proofs.NullSafety
import TraversalSql.Proofs.PrintedConditions
import TraversalSql.Proofs.SuggestedEdges
import TraversalSql.Proofs.QuotedNames
import TraversalSql.Proofs.TableIndex
import TraversalSql.Proofs.OrderedMaps
