import ExprGraph.Derivative.Product

/-!
# Calls

Every operation that may change a graph or a memo, as a value.  A sequence of calls is thus a list,
and what can be reached by any use of the library is what can be reached by running such a list.
-/

namespace ExprGraph

/-- An operation on a graph and a memo. -/
inductive Call where
  | declare (name : String)
  | declareMany (stem : String) (count : Nat)
  | literal (value : Float)
  | operation (op : Op) (args : List Handle)
  | powLiteral (a : Handle) (exponent : Float)
  | square (a : Handle)
  | scale (factor : Float) (a : Handle)
  | sum (terms : List Handle)
  | product (factors : List Handle)
  | dot (left right : List Handle)
  | derivative (node var : Handle)
  | derivativeWrt (node : Handle) (vars : List Handle)
  | gradient (node : Handle) (vars : List Handle)
  | jacobian (outputs vars : List Handle) (columns : Option (List Handle))
  | hessian (node : Handle) (vars : List Handle)
  | sparseJacobian (outputs vars : List Handle)
  | jacobianTimes (outputs vars : List Handle)
  | transposeTimes (outputs vars : List Handle)
  | hessianTimes (node : Handle) (vars : List Handle)
deriving DecidableEq

/-- The result of a call. -/
inductive Answer where
  | handle (h : Handle)
  | handles (hs : List Handle)
  | matrix (m : Matrix Handle)
  | sparse (m : SparseMatrix)
  | product (p : VectorProduct)
  /-- The call had an effect and no result. -/
  | done
deriving DecidableEq

/-- The handles in an answer. -/
def Answer.toList : Answer → List Handle
  | handle h => [h]
  | handles hs => hs
  | matrix m => m.toList
  | sparse m => m.entries.toList.map fun (_, _, h) => h
  | product p => p.product ++ p.seeds
  | done => []

namespace Call

/-- Runs a call. -/
def run : Call → DiffM Answer
  | declare name => DiffM.onGraph do
    return .handle (← BuildM.extend fun g => g.declare name)
  | declareMany stem count => DiffM.onGraph do
    return .handles (← BuildM.extend fun g => g.declareMany stem count)
  | literal v => return .handle (← DiffM.literal v)
  | operation op args => return .handle (← DiffM.operation op args)
  | powLiteral a exponent => return .handle (← DiffM.onGraph (BuildM.powLiteral a exponent))
  | square a => return .handle (← DiffM.onGraph (BuildM.square a))
  | scale factor a => return .handle (← DiffM.onGraph (BuildM.scale factor a))
  | sum terms => return .handle (← DiffM.onGraph (BuildM.sum terms))
  | product factors => return .handle (← DiffM.onGraph (BuildM.product factors))
  | dot left right => return .handle (← DiffM.onGraph (BuildM.dot left right))
  | derivative node var => return .handle (← DiffM.derivative node var)
  | derivativeWrt node vars => return .handle (← DiffM.derivativeWrt node vars)
  | gradient node vars => return .handles (← DiffM.gradient node vars)
  | jacobian outputs vars columns =>
    return .matrix (← DiffM.jacobian outputs vars columns)
  | hessian node vars => return .matrix (← DiffM.hessian node vars)
  | sparseJacobian outputs vars => return .sparse (← DiffM.sparseJacobian outputs vars)
  | jacobianTimes outputs vars => return .product (← DiffM.jacobianTimes outputs vars)
  | transposeTimes outputs vars => return .product (← DiffM.transposeTimes outputs vars)
  | hessianTimes node vars => return .product (← DiffM.hessianTimes node vars)

end Call

end ExprGraph
