import ExprGraph.Session.Basic
import ExprGraph.Program.Evaluator
import ExprGraph.Tree
import ExprGraph.Interpretation.Exact
import ExprGraph.Derivative.Direct
import ExprGraph.Derivative.Dual
import ExprGraph.Program.Liveness
import ExprGraph.Proofs.Graph.Growth
import ExprGraph.Proofs.Graph.WellFormed
import ExprGraph.Proofs.Graph.Evaluation
import ExprGraph.Proofs.Graph.Traversal
import ExprGraph.Proofs.Program.Allocation
import ExprGraph.Proofs.Program.Execution
import ExprGraph.Proofs.Derivative.Growth
import ExprGraph.Proofs.Session.WellFormed
import ExprGraph.Proofs.Program.Correctness
import ExprGraph.Proofs.Graph.Reading
import ExprGraph.Proofs.Graph.Building
import ExprGraph.Proofs.Derivative.Memo
import ExprGraph.Proofs.Derivative.Forward
import ExprGraph.Proofs.Derivative.Reverse
import ExprGraph.Proofs.Matrix
import ExprGraph.Proofs.Derivative.Jacobian
import ExprGraph.Proofs.Derivative.Product
import ExprGraph.Proofs.Derivative.Progress
import ExprGraph.Proofs.Interpretation.Dual
import ExprGraph.Proofs.Session.Range
import ExprGraph.Proofs.Session.Derivative
import ExprGraph.Proofs.Session.Product
import ExprGraph.Proofs.Session.Construction
import ExprGraph.Proofs.Graph.Canonical
import ExprGraph.Proofs.Session.Canonical
import ExprGraph.Proofs.Derivative.Answer
import ExprGraph.Proofs.Session.Handles
import ExprGraph.Proofs.Graph.Replay
import ExprGraph.Proofs.Derivative.Replay
import ExprGraph.Proofs.Derivative.Faithful
import ExprGraph.Proofs.Derivative.Direct
import ExprGraph.Proofs.Derivative.Blind
import ExprGraph.Proofs.Derivative.Coverage
import ExprGraph.Proofs.Session.Memo
import ExprGraph.Proofs.Derivative.Arguments
import ExprGraph.Proofs.Derivative.Recall
import ExprGraph.Proofs.Session.Refusal
import ExprGraph.Proofs.Session.Reindexing
import ExprGraph.Proofs.Derivative.Curvature
import ExprGraph.Proofs.Session.Hessian
import ExprGraph.Proofs.Program.Column
import ExprGraph.Proofs.Program.Naturality
import ExprGraph.Proofs.Program.Batch
import ExprGraph.Proofs.Program.Acceptance
import ExprGraph.Proofs.Scalar.Negation
import ExprGraph.Proofs.Program.SinglePoint
import ExprGraph.Proofs.Program.Rules
import ExprGraph.Proofs.Program.Chunk
import ExprGraph.Session.Script
import ExprGraph.Proofs.Graph.Renaming
import ExprGraph.Proofs.Graph.Relocation
import ExprGraph.Proofs.Graph.Parallel
import ExprGraph.Proofs.Session.Script
import ExprGraph.Proofs.Graph.Normal
import ExprGraph.Proofs.Session.Rebuilding
import ExprGraph.Proofs.Scalar.Commutation
import ExprGraph.Proofs.Graph.Commutation
import ExprGraph.Proofs.Session.Commutation
import ExprGraph.Proofs.Derivative.Operators
import ExprGraph.Proofs.Derivative.Independence
import ExprGraph.Proofs.Derivative.Confinement
import ExprGraph.Proofs.Derivative.Pruning
import ExprGraph.Proofs.Derivative.Requests
import ExprGraph.Proofs.Session.Independence
import ExprGraph.Proofs.SparseMatrix
import ExprGraph.Proofs.Derivative.Sparse
import ExprGraph.Proofs.Session.Sparse
import ExprGraph.Proofs.Graph.Below
import ExprGraph.Proofs.Session.Traversal
import ExprGraph.Proofs.Program.InPlace
import ExprGraph.Proofs.Program.Reuse
import ExprGraph.Proofs.Cost
import ExprGraph.Proofs.Graph.Size
import ExprGraph.Proofs.Derivative.Stock
import ExprGraph.Proofs.Derivative.Cost
import ExprGraph.Proofs.Session.Cost
import ExprGraph.Proofs.Matrix.Laws
import ExprGraph.Proofs.Scalar.Packing
import ExprGraph.Proofs.Scalar.Weight
import ExprGraph.Proofs.Derivative.Support
import ExprGraph.Proofs.Derivative.Branch
import ExprGraph.Proofs.Session.Branch
