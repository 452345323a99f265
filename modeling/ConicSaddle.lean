import ConicSaddle.Cone.DimsText
import ConicSaddle.Cone.Packing
import ConicSaddle.Dense.Display
import ConicSaddle.Dense.Product
import ConicSaddle.Kkt.Session
import ConicSaddle.Kkt.SettingsText
import ConicSaddle.Ldl.Solve
import ConicSaddle.Scaling.Apply
import ConicSaddle.Proofs.Checked
import ConicSaddle.Proofs.Cone.Blockwise
import ConicSaddle.Proofs.Cone.Counts
import ConicSaddle.Proofs.Cone.DimsText
import ConicSaddle.Proofs.Cone.Layout
import ConicSaddle.Proofs.Cone.Overflow
import ConicSaddle.Proofs.Cone.Packing
import ConicSaddle.Proofs.Cone.Places
import ConicSaddle.Proofs.Cone.Sizes
import ConicSaddle.Proofs.Dense.Block
import ConicSaddle.Proofs.Dense.InPlace
import ConicSaddle.Proofs.Dense.LowerTriangle
import ConicSaddle.Proofs.Dense.Product
import ConicSaddle.Proofs.Dense.Views
import ConicSaddle.Proofs.Exact.Action
import ConicSaddle.Proofs.Exact.Congruence
import ConicSaddle.Proofs.Exact.InnerProduct
import ConicSaddle.Proofs.Exact.Layout
import ConicSaddle.Proofs.Exact.Operator
import ConicSaddle.Proofs.Exact.Ordered
import ConicSaddle.Proofs.Exact.Reduction
import ConicSaddle.Proofs.Exact.Refinement
import ConicSaddle.Proofs.Exact.Reflection
import ConicSaddle.Proofs.Exact.RoundTrip
import ConicSaddle.Proofs.Exact.Scalar
import ConicSaddle.Proofs.Exact.Scaling
import ConicSaddle.Proofs.Exact.Subspaces
import ConicSaddle.Proofs.Exact.ZeroResidual
import ConicSaddle.Proofs.Json.Grammar
import ConicSaddle.Proofs.Json.Reading
import ConicSaddle.Proofs.Json.Scanning
import ConicSaddle.Proofs.Json.Writing
import ConicSaddle.Proofs.Kkt.Alike
import ConicSaddle.Proofs.Kkt.Assembly
import ConicSaddle.Proofs.Kkt.Atomicity
import ConicSaddle.Proofs.Kkt.Calls
import ConicSaddle.Proofs.Kkt.Contents
import ConicSaddle.Proofs.Kkt.Factors
import ConicSaddle.Proofs.Kkt.FiniteSolution
import ConicSaddle.Proofs.Kkt.Isolation
import ConicSaddle.Proofs.Kkt.Lifecycle
import ConicSaddle.Proofs.Kkt.LowerOnly
import ConicSaddle.Proofs.Kkt.Protocol
import ConicSaddle.Proofs.Kkt.RefinedSolution
import ConicSaddle.Proofs.Kkt.Refinement
import ConicSaddle.Proofs.Kkt.Solution
import ConicSaddle.Proofs.Kkt.System
import ConicSaddle.Proofs.Kkt.Total
import ConicSaddle.Proofs.Kkt.TwoRuns
import ConicSaddle.Proofs.Kkt.Unrefined
import ConicSaddle.Proofs.Kkt.WellPosed
import ConicSaddle.Proofs.Ldl.BlockInertia
import ConicSaddle.Proofs.Ldl.Blocks
import ConicSaddle.Proofs.Ldl.Elimination
import ConicSaddle.Proofs.Ldl.ExactStep
import ConicSaddle.Proofs.Ldl.Factors
import ConicSaddle.Proofs.Ldl.Growth
import ConicSaddle.Proofs.Ldl.Inertia
import ConicSaddle.Proofs.Ldl.LowerOnly
import ConicSaddle.Proofs.Ldl.Record
import ConicSaddle.Proofs.Ldl.Signature
import ConicSaddle.Proofs.Ldl.Solution
import ConicSaddle.Proofs.Ldl.Substitution
import ConicSaddle.Proofs.Ldl.Visits
import ConicSaddle.Proofs.Nan.Finite
import ConicSaddle.Proofs.Nan.Ldl
import ConicSaddle.Proofs.Nan.Rounding
import ConicSaddle.Proofs.Nan.Rules
import ConicSaddle.Proofs.Nan.Scaling
import ConicSaddle.Proofs.Nan.Solution
import ConicSaddle.Proofs.Nan.Sums
import ConicSaddle.Proofs.Nan.System
import ConicSaddle.Proofs.Number.Decimal
import ConicSaddle.Proofs.Scaling.Action
import ConicSaddle.Proofs.Scaling.Blocks
import ConicSaddle.Proofs.Scaling.LowerOnly
import ConicSaddle.Proofs.Scaling.Shapes
import ConicSaddle.Proofs.Scaling.Visible
import ConicSaddle.Proofs.Scaling.Workspace
import ConicSaddle.Proofs.Vec.Entries
import ConicSaddle.Proofs.Vec.PairwiseSum
