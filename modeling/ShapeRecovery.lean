import ShapeRecovery.Expr.Algebra
import ShapeRecovery.Expr.Basic
import ShapeRecovery.Expr.Canonical
import ShapeRecovery.Expr.Cast
import ShapeRecovery.Expr.CommonDivisor
import ShapeRecovery.Expr.Constant
import ShapeRecovery.Expr.Division
import ShapeRecovery.Expr.LinearForm
import ShapeRecovery.Expr.Maximum
import ShapeRecovery.Expr.Meaning
import ShapeRecovery.Expr.Order
import ShapeRecovery.Expr.Substitution
import ShapeRecovery.Expr.Text
import ShapeRecovery.Expr.Typing
import ShapeRecovery.Fault
import ShapeRecovery.Item.Basic
import ShapeRecovery.Item.Construct
import ShapeRecovery.Memory.Access
import ShapeRecovery.Memory.Declaration
import ShapeRecovery.Memory.Pointer
import ShapeRecovery.Number.Factorization
import ShapeRecovery.Number.Sieve
import ShapeRecovery.Proofs.Ending
import ShapeRecovery.Proofs.Expr.Affine
import ShapeRecovery.Proofs.Expr.Algebra
import ShapeRecovery.Proofs.Expr.CanonicalForm
import ShapeRecovery.Proofs.Expr.CommonDivisor
import ShapeRecovery.Proofs.Expr.CommonFactors
import ShapeRecovery.Proofs.Expr.Confusion
import ShapeRecovery.Proofs.Expr.Constants
import ShapeRecovery.Proofs.Expr.Constructors
import ShapeRecovery.Proofs.Expr.Coordinates
import ShapeRecovery.Proofs.Expr.Degree
import ShapeRecovery.Proofs.Expr.Depth
import ShapeRecovery.Proofs.Expr.Divided
import ShapeRecovery.Proofs.Expr.DividedDegree
import ShapeRecovery.Proofs.Expr.Division
import ShapeRecovery.Proofs.Expr.DivisionIdentity
import ShapeRecovery.Proofs.Expr.DivisionSteps
import ShapeRecovery.Proofs.Expr.DivisorTermination
import ShapeRecovery.Proofs.Expr.ExactDivision
import ShapeRecovery.Proofs.Expr.FactorDivision
import ShapeRecovery.Proofs.Expr.Factored
import ShapeRecovery.Proofs.Expr.Graded
import ShapeRecovery.Proofs.Expr.Halting
import ShapeRecovery.Proofs.Expr.Hereditary
import ShapeRecovery.Proofs.Expr.Inherited
import ShapeRecovery.Proofs.Expr.Joins
import ShapeRecovery.Proofs.Expr.KeyOrder
import ShapeRecovery.Proofs.Expr.Linear
import ShapeRecovery.Proofs.Expr.LinearDivision
import ShapeRecovery.Proofs.Expr.LinearForm
import ShapeRecovery.Proofs.Expr.LinearNormalForm
import ShapeRecovery.Proofs.Expr.LinearParts
import ShapeRecovery.Proofs.Expr.LoopFree
import ShapeRecovery.Proofs.Expr.LoopNest
import ShapeRecovery.Proofs.Expr.LoopOrder
import ShapeRecovery.Proofs.Expr.Matching
import ShapeRecovery.Proofs.Expr.MaximumLaws
import ShapeRecovery.Proofs.Expr.Monomial
import ShapeRecovery.Proofs.Expr.Multiplied
import ShapeRecovery.Proofs.Expr.Nest
import ShapeRecovery.Proofs.Expr.OperandOrder
import ShapeRecovery.Proofs.Expr.Operands
import ShapeRecovery.Proofs.Expr.Order
import ShapeRecovery.Proofs.Expr.Product
import ShapeRecovery.Proofs.Expr.ProductParts
import ShapeRecovery.Proofs.Expr.Proper
import ShapeRecovery.Proofs.Expr.Reading
import ShapeRecovery.Proofs.Expr.Rebuilding
import ShapeRecovery.Proofs.Expr.Replacement
import ShapeRecovery.Proofs.Expr.Search
import ShapeRecovery.Proofs.Expr.Settled
import ShapeRecovery.Proofs.Expr.SettledSteps
import ShapeRecovery.Proofs.Expr.SmallConstant
import ShapeRecovery.Proofs.Expr.Soundness
import ShapeRecovery.Proofs.Expr.Starts
import ShapeRecovery.Proofs.Expr.Steps
import ShapeRecovery.Proofs.Expr.StrictOrder
import ShapeRecovery.Proofs.Expr.Substitution
import ShapeRecovery.Proofs.Expr.Sum
import ShapeRecovery.Proofs.Expr.SymbolicDivisor
import ShapeRecovery.Proofs.Expr.SymbolicTerm
import ShapeRecovery.Proofs.Expr.TermTotals
import ShapeRecovery.Proofs.Expr.Termination
import ShapeRecovery.Proofs.Expr.Terms
import ShapeRecovery.Proofs.Expr.UniqueOrder
import ShapeRecovery.Proofs.Expr.Value
import ShapeRecovery.Proofs.Expr.Weight
import ShapeRecovery.Proofs.Expr.Widths
import ShapeRecovery.Proofs.Expr.WrittenForm
import ShapeRecovery.Proofs.Expr.ZeroFactor
import ShapeRecovery.Proofs.Memory.Pointer
import ShapeRecovery.Proofs.Number.Factorization
import ShapeRecovery.Proofs.Number.Sieve
import ShapeRecovery.Proofs.Outcome
import ShapeRecovery.Proofs.Schema.Calls
import ShapeRecovery.Proofs.Schema.Checks
import ShapeRecovery.Proofs.Schema.Keys
import ShapeRecovery.Proofs.Schema.Sharing
import ShapeRecovery.Proofs.Shape.Agreement
import ShapeRecovery.Proofs.Shape.Analysis
import ShapeRecovery.Proofs.Shape.Collection
import ShapeRecovery.Proofs.Shape.Consistency
import ShapeRecovery.Proofs.Shape.ConstantShape
import ShapeRecovery.Proofs.Shape.Frame
import ShapeRecovery.Proofs.Shape.Independence
import ShapeRecovery.Proofs.Shape.InnerSizes
import ShapeRecovery.Proofs.Shape.Normalized
import ShapeRecovery.Proofs.Shape.Partition
import ShapeRecovery.Proofs.Shape.Recovery
import ShapeRecovery.Proofs.Shape.Reports
import ShapeRecovery.Proofs.Shape.SizeLoops
import ShapeRecovery.Proofs.Shape.SizeSearch
import ShapeRecovery.Proofs.Shape.Sizes
import ShapeRecovery.Proofs.Shape.Stride
import ShapeRecovery.Proofs.Shape.Subscripts
import ShapeRecovery.Proofs.Shape.Summary
import ShapeRecovery.Proofs.Word
import ShapeRecovery.Schema.Content
import ShapeRecovery.Schema.Grammar
import ShapeRecovery.Schema.Model
import ShapeRecovery.Schema.Store
import ShapeRecovery.Schema.Token
import ShapeRecovery.Settings
import ShapeRecovery.Shape.Analysis
import ShapeRecovery.Shape.Basic
import ShapeRecovery.Shape.Collection
import ShapeRecovery.Shape.Registry
import ShapeRecovery.Shape.Sizes
import ShapeRecovery.Shape.Subscripts
import ShapeRecovery.Shape.Summary
import ShapeRecovery.Symbol
import ShapeRecovery.Text.Alphanumeric
import ShapeRecovery.Text.Document
import ShapeRecovery.Text.Letter
import ShapeRecovery.Text.Line
import ShapeRecovery.Text.Name
import ShapeRecovery.Text.Printable
import ShapeRecovery.Text.Quoted
import ShapeRecovery.Trace
import ShapeRecovery.Value.Basic
import ShapeRecovery.Value.Decimal
import ShapeRecovery.Word
