import Assay.Constraint.Admits
import Assay.Constraint.Basic
import Assay.Constraint.Check
import Assay.Constraint.Printer
import Assay.Double.Basic
import Assay.Double.Decimal
import Assay.Expression.Error
import Assay.Expression.Reader
import Assay.Expression.Scan
import Assay.Expression.Token
import Assay.Format.Basic
import Assay.Format.Calendar
import Assay.Format.Pattern
import Assay.Json.Basic
import Assay.Json.Document
import Assay.Json.Printer
import Assay.Json.Reader
import Assay.Path
import Assay.Proofs.Acceptance
import Assay.Proofs.Acyclic
import Assay.Proofs.Alteration
import Assay.Proofs.Caching
import Assay.Proofs.Closed
import Assay.Proofs.Compilation
import Assay.Proofs.Conformance
import Assay.Proofs.Cutting
import Assay.Proofs.Decimals
import Assay.Proofs.Decision
import Assay.Proofs.Deepening
import Assay.Proofs.Depth
import Assay.Proofs.Diagnosis
import Assay.Proofs.Embedding
import Assay.Proofs.EmptyRanges
import Assay.Proofs.Equality
import Assay.Proofs.ErrorOffsets
import Assay.Proofs.ExactValues
import Assay.Proofs.Fields
import Assay.Proofs.FirstFault
import Assay.Proofs.FormatLanguages
import Assay.Proofs.Grammar
import Assay.Proofs.HeadGraph
import Assay.Proofs.Idempotence
import Assay.Proofs.Inhabitants
import Assay.Proofs.Isolation
import Assay.Proofs.Lexing
import Assay.Proofs.Locality
import Assay.Proofs.Lowering
import Assay.Proofs.Matching
import Assay.Proofs.Measures
import Assay.Proofs.Normalization
import Assay.Proofs.OptionalFields
import Assay.Proofs.Order
import Assay.Proofs.Parts
import Assay.Proofs.Patterns
import Assay.Proofs.Places
import Assay.Proofs.Pointing
import Assay.Proofs.Policies
import Assay.Proofs.ReadForm
import Assay.Proofs.ReaderSteps
import Assay.Proofs.Reading
import Assay.Proofs.References
import Assay.Proofs.Reparsing
import Assay.Proofs.ReportLines
import Assay.Proofs.ReportOrder
import Assay.Proofs.RoundTrip
import Assay.Proofs.Rounding
import Assay.Proofs.Satisfaction
import Assay.Proofs.ScopeChanges
import Assay.Proofs.Sequences
import Assay.Proofs.ShapeUnion
import Assay.Proofs.Similarity
import Assay.Proofs.Slicing
import Assay.Proofs.Sources
import Assay.Proofs.Spelling
import Assay.Proofs.Splicing
import Assay.Proofs.Stripping
import Assay.Proofs.TypedReading
import Assay.Proofs.Union
import Assay.Proofs.UnionShape
import Assay.Proofs.WellFormed
import Assay.Proofs.WholeNumbers
import Assay.Report
import Assay.Schema.Basic
import Assay.Schema.Bounds
import Assay.Schema.Cycle
import Assay.Schema.Error
import Assay.Schema.Lowering
import Assay.Schema.Scope
import Assay.Shape.Accepts
import Assay.Shape.Basic
import Assay.Shape.Of
import Assay.Shape.Printer
import Assay.Target
import Assay.Text.Alphabetic
import Assay.Text.Class
import Assay.Text.Digits
import Assay.Text.Lowercase
import Assay.Text.Numeric
import Assay.Text.Uppercase
import Assay.Tree.Allows
import Assay.Tree.Basic
import Assay.Tree.Normalize
import Assay.Tree.Violations
import Assay.Validator
import Assay.Violation
