import ExprGraph.Derivative.Jacobian
import ExprGraph.Derivative.Reverse

/-!
# Jacobian products

Products of a Jacobian or its transpose with a vector, as graphs.  The entries of the vector are
fresh variables, the seeds, and no Jacobian is formed: one sweep builds the product.
-/

namespace ExprGraph

/-- A product with the variables that carry its vector. -/
structure VectorProduct where
  /-- One node for every entry of the product. -/
  product : List Handle
  /-- One variable for every entry of the vector. -/
  seeds : List Handle
deriving DecidableEq, Repr

namespace DiffM

/-- Checks outputs, then variables. -/
def checkArguments (outputs vars : List Handle) : DiffM Unit := do
  inspect fun g => g.validate outputs
  inspect fun g => g.expectVariables vars

/-- The tangents that seeds give to variables.  A variable listed more than once gets the sum of
its seeds. -/
def seedTangents : List (Handle × Handle) → Tangents → DiffM Tangents
  | [], tangents => pure tangents
  | (var, seed) :: rest, tangents => do
    let t ← match tangents[var]? with
      | some before => operation .add [before, seed]
      | none => pure seed
    seedTangents rest (tangents.insert var t)

/-- The product of the Jacobian with a vector of seeds, one for every variable. -/
def jacobianTimes (outputs vars : List Handle) : DiffM VectorProduct := do
  checkArguments outputs vars
  let seeds ← onGraph (BuildM.extend fun g => g.declareMany "v" vars.length)
  let tangents ← seedTangents (vars.zip seeds) {}
  let product ← forward outputs tangents
  pure ⟨product, seeds⟩

/-- The product of the transposed Jacobian with a vector of seeds, one for every output. -/
def transposeTimes (outputs vars : List Handle) : DiffM VectorProduct := do
  checkArguments outputs vars
  let seeds ← onGraph (BuildM.extend fun g => g.declareMany "w" outputs.length)
  let product ← reverse outputs seeds vars
  pure ⟨product, seeds⟩

/-- The product of the Hessian of a node with a vector of seeds, one for every variable. -/
def hessianTimes (node : Handle) (vars : List Handle) : DiffM VectorProduct := do
  let slopes ← gradient node vars
  jacobianTimes slopes vars

end DiffM

end ExprGraph
