import SemanticCore.Context
import SemanticCore.Syntax.Printer
import SemanticCore.Syntax.SideTable
import SemanticCore.Types.Call
import SemanticCore.Types.Literal
import SemanticCore.Types.Predicate
import SemanticCore.Types.Hash
import SemanticCore.Proofs.Arena.Handle
import SemanticCore.Proofs.Syntax.LinkForest
import SemanticCore.Proofs.Syntax.TreeLinks
import SemanticCore.Proofs.Syntax.Ancestry
import SemanticCore.Proofs.Syntax.ChildEdit
import SemanticCore.Proofs.Syntax.Forest
import SemanticCore.Proofs.Syntax.Descent
import SemanticCore.Proofs.Syntax.EditEffect
import SemanticCore.Proofs.Syntax.VisitEvents
import SemanticCore.Proofs.Syntax.VisitOrder
import SemanticCore.Proofs.Syntax.Queries
import SemanticCore.Proofs.Syntax.AttributeEdit
import SemanticCore.Proofs.Number.Shortest
import SemanticCore.Proofs.Number.Reading
import SemanticCore.Proofs.Number.Text
import SemanticCore.Proofs.Interner.Numbering
import SemanticCore.Proofs.Types.Key
import SemanticCore.Proofs.Types.History
import SemanticCore.Proofs.Types.Canonicity
import SemanticCore.Proofs.Types.Structure
import SemanticCore.Proofs.Types.Equality
import SemanticCore.Proofs.Types.OneRegistry
import SemanticCore.Proofs.Types.Built
import SemanticCore.Proofs.Types.Extent
import SemanticCore.Proofs.Types.RecordLayout
import SemanticCore.Proofs.Types.ArrayLayout
import SemanticCore.Proofs.Types.InstanceLayout
import SemanticCore.Proofs.Types.WellFormed
import SemanticCore.Proofs.Types.RelationCongruence
import SemanticCore.Proofs.Types.Compatibility
import SemanticCore.Proofs.Types.Universe
import SemanticCore.Proofs.Types.Assignment
import SemanticCore.Proofs.Types.ImplicitConversion
import SemanticCore.Proofs.Types.Inheritance
import SemanticCore.Proofs.Types.FieldLookup
import SemanticCore.Proofs.Types.CallDistance
import SemanticCore.Proofs.Types.OverloadRanking
import SemanticCore.Proofs.Arena.Alignment
import SemanticCore.Proofs.Number.Counting
import SemanticCore.Proofs.Arena.Safety
import SemanticCore.Proofs.Arena.Rounding
import SemanticCore.Proofs.Arena.Keeping
import SemanticCore.Proofs.Arena.Packing
import SemanticCore.Proofs.Arena.PoolHistory
import SemanticCore.Proofs.Scope.Environment
import SemanticCore.Proofs.Scope.Nesting
import SemanticCore.Proofs.Scope.Refinement
import SemanticCore.Proofs.Scope.Trace
import SemanticCore.Proofs.Scope.Unused
import SemanticCore.Proofs.Interner.Storage
import SemanticCore.Proofs.Interner.Placement
import SemanticCore.Proofs.Interner.Canonicity
import SemanticCore.Proofs.Interner.Housing
import SemanticCore.Proofs.Renaming.Values
import SemanticCore.Proofs.Renaming.Trees
import SemanticCore.Proofs.Renaming.Walks
import SemanticCore.Proofs.Renaming.Scopes
import SemanticCore.Proofs.Renaming.Types
import SemanticCore.Proofs.Syntax.AttributeIsolation
import SemanticCore.Proofs.Syntax.EditInvariant
import SemanticCore.Proofs.Syntax.Gathering
import SemanticCore.Proofs.Syntax.Generation
import SemanticCore.Proofs.Context.Operation
import SemanticCore.Proofs.Context.Alike
import SemanticCore.Proofs.Context.Isolation
import SemanticCore.Proofs.Context.Handles
import SemanticCore.Proofs.Context.Bytes
import SemanticCore.Proofs.Syntax.FailedEdit
import SemanticCore.Proofs.Syntax.Growth
import SemanticCore.Proofs.Syntax.Construction
import SemanticCore.Proofs.Syntax.Payload
import SemanticCore.Proofs.Syntax.PrintedText
import SemanticCore.Proofs.Source.Lines
import SemanticCore.Proofs.Source.Position
import SemanticCore.Proofs.Diagnostic.Caret
import SemanticCore.Proofs.Arena.Replay
import SemanticCore.Proofs.Types.UniqueSpelling
import SemanticCore.Proofs.Types.SameMeasures
import SemanticCore.Proofs.Number.Word
import SemanticCore.Proofs.Types.IntegerRange
import SemanticCore.Proofs.Arena.PowerOfTwo
import SemanticCore.Proofs.Syntax.FlagText
import SemanticCore.Proofs.Context.Storage
import SemanticCore.Proofs.Context.Session
