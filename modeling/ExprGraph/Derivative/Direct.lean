import ExprGraph.Derivative.Rule

/-!
# Direct differentiation

The derivative of a node by plain recursion, without a memo: the derivatives of the operands from
left to right, then the sum of the products of local partials and those derivatives, all built
through the same functions.  Shared nodes are differentiated once for every use.
-/

namespace ExprGraph

namespace BuildM

/-- Whether a handle names a zero literal. -/
def isZero (h : Handle) : BuildM Bool := inspect fun g => .ok (g.isZero h)

/-- The sum of the products of local partials and tangents from operand number `index` on.  An
operand with a zero tangent is skipped before its partial is built, and a zero partial adds
nothing. -/
def combine (node : Handle) (app : Application) :
    Nat → List Handle → Option Handle → BuildM Handle
  | _, [], some total => pure total
  | _, [], none => literal 0.0
  | index, tangent :: rest, total => do
    if ← isZero tangent then
      combine node app (index + 1) rest total
    else
      let p ← (app.op.partialBy index).build node app.args
      if ← isZero p then
        combine node app (index + 1) rest total
      else
        let term ← operation .mul [p, tangent]
        let total ← match total with
          | some before => operation .add [before, term]
          | none => pure term
        combine node app (index + 1) rest (some total)

/-- The derivative of a node by a variable, for a node below which chains of operands are shorter
than `depth`. -/
def differentiateBelow (var : Handle) : Nat → Handle → BuildM Handle
  | 0, _ => fault .exhausted
  | depth + 1, node => do
    match ← inspect fun g => g.node node with
    | .var .. => literal (if node = var then 1.0 else 0.0)
    | .lit _ => literal 0.0
    | .app app =>
      let tangents ← app.args.mapM (differentiateBelow var depth)
      combine node app 0 tangents none

/-- The derivative of a node by a variable.  Operands are made before their users, so a chain of
operands is no longer than the place of the node it starts at. -/
def derivative (node var : Handle) : BuildM Handle := do
  inspect fun g => g.validate [node, var]
  inspect fun g => g.expectVariables [var]
  let place ← inspect fun g => .ok (g.placeOf node)
  differentiateBelow var (place + 1) node

end BuildM

end ExprGraph
