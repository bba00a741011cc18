import ExprGraph.Derivative.Forward
import ExprGraph.Matrix
import ExprGraph.SparseMatrix

/-!
# Jacobians

Gradients, Jacobians and Hessians.  Every entry is a derivative through the memo, in row-major
order.
-/

namespace ExprGraph

namespace DiffM

/-- Succeeds when every column is one of the variables, and gives the position of the first one
that is not. -/
def checkColumns (vars : List Handle) : Nat → List Handle → Except GraphError Unit
  | _, [] => .ok ()
  | position, col :: rest =>
    if vars.contains col then checkColumns vars (position + 1) rest
    else .error (.unknownColumn position)

/-- Checks outputs, variables and requested columns, in this order, and gives the columns of a
Jacobian: the requested ones, or else the variables. -/
def resolveColumns (outputs vars : List Handle) (columns : Option (List Handle)) :
    DiffM (List Handle) := do
  inspect fun g => g.validate outputs
  inspect fun g => g.expectVariables vars
  match columns with
  | none => pure vars
  | some columns =>
    inspect fun _ => checkColumns vars 0 columns
    pure columns

/-- The derivatives of every output by every column. -/
def derivativeRows (outputs columns : List Handle) : DiffM (List (List Handle)) :=
  outputs.mapM fun out => columns.mapM fun col => derivative out col

/-- The Jacobian of some outputs by some variables, or by the requested ones of them. -/
def jacobian (outputs vars : List Handle) (columns : Option (List Handle)) :
    DiffM (Matrix Handle) := do
  let columns ← resolveColumns outputs vars columns
  let rows ← derivativeRows outputs columns
  pure ⟨outputs.length, columns.length, rows.flatten.toArray⟩

/-- The derivatives of a node by some variables. -/
def gradient (node : Handle) (vars : List Handle) : DiffM (List Handle) := do
  let row ← jacobian [node] vars none
  pure row.toList

/-- The matrix of second derivatives: the Jacobian of the gradient. -/
def hessian (node : Handle) (vars : List Handle) : DiffM (Matrix Handle) := do
  let slopes ← gradient node vars
  jacobian slopes vars none

/-- The entries of one row that are no zero literals, from column `col` on. -/
def sparseRow (row : Nat) (out : Handle) :
    Nat → List Handle → DiffM (List (Nat × Nat × Handle))
  | _, [] => pure []
  | col, var :: rest => do
    let d ← derivative out var
    let isZero ← isZero d
    let entries ← sparseRow row out (col + 1) rest
    pure (if isZero then entries else (row, col, d) :: entries)

/-- The entries that are no zero literals, from row `row` on. -/
def sparseRows (columns : List Handle) :
    Nat → List Handle → DiffM (List (Nat × Nat × Handle))
  | _, [] => pure []
  | row, out :: rest => do
    let entries ← sparseRow row out 0 columns
    let others ← sparseRows columns (row + 1) rest
    pure (entries ++ others)

/-- The Jacobian without the entries that are zero literals. -/
def sparseJacobian (outputs vars : List Handle) : DiffM SparseMatrix := do
  let columns ← resolveColumns outputs vars none
  let entries ← sparseRows columns 0 outputs
  pure ⟨outputs.length, columns.length, entries.toArray⟩

end DiffM

end ExprGraph
