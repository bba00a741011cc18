import ExprGraph.Derivative.Memo

/-!
# Forward differentiation

Tangents are built from operands to users.  The derivative by one variable is memoised for every
node on the way; a sweep with arbitrary seeds shares only the local partials.
-/

namespace ExprGraph

namespace DiffM

/-- The memoised derivative of a node by a variable. -/
def known (node var : Handle) : DiffM Handle :=
  consult fun w =>
    match w.memo.derivatives[(node, var)]? with
    | some d => .ok d
    | none => .error (.fault .missingEntry)

/-- Keeps the derivative of a node by a variable. -/
def keep (node var d : Handle) : DiffM Unit :=
  record fun memo => { memo with derivatives := memo.derivatives.insert (node, var) d }

/-- The nodes below `node` whose derivative is not known, every node after its operands.  Known
nodes are not entered. -/
def pendingFor (node var : Handle) : DiffM (List Handle) :=
  consult fun w =>
    w.graph.orderSkipping (fun a => w.memo.derivatives.contains (a, var)) [node]

/-- Builds and keeps the derivative of a node whose operands' derivatives are known. -/
def differentiate (var node : Handle) : DiffM Unit := do
  match ← inspect fun g => g.node node with
  | .var .. => keep node var (← literal (if node = var then 1.0 else 0.0))
  | .lit _ => keep node var (← literal 0.0)
  | .app app =>
    let tangents ← app.args.mapM fun a => known a var
    keep node var (← chain node app tangents)

/-- The derivative of a node by a variable. -/
def derivative (node var : Handle) : DiffM Handle := do
  inspect fun g => g.validate [node, var]
  inspect fun g => g.expectVariables [var]
  sync
  match ← consult fun w => .ok w.memo.derivatives[(node, var)]? with
  | some d => pure d
  | none =>
    let pending ← pendingFor node var
    pending.forM (differentiate var)
    known node var

/-- Repeated differentiation, by the first variable first. -/
def derivativeWrt (node : Handle) (vars : List Handle) : DiffM Handle := do
  inspect fun g => g.validate [node]
  vars.foldlM (fun d var => derivative d var) node

/-- Tangents of nodes during a sweep. -/
abbrev Tangents := Std.HashMap Handle Handle

/-- The tangent of a node that the sweep has passed. -/
def tangentOf (tangents : Tangents) (node : Handle) : DiffM Handle :=
  match tangents[node]? with
  | some t => pure t
  | none => fun w => .error (.fault .missingEntry) w

/-- Passes one node of a forward sweep. -/
def sweepForward (seeds : Tangents) (zero : Handle) (tangents : Tangents) (node : Handle) :
    DiffM Tangents := do
  match ← inspect fun g => g.node node with
  | .var .. => pure (tangents.insert node ((seeds[node]?).getD zero))
  | .lit _ => pure (tangents.insert node zero)
  | .app app =>
    let operandTangents ← app.args.mapM (tangentOf tangents)
    let t ← chain node app operandTangents
    pure (tangents.insert node t)

/-- The tangents of some roots, given the tangents of variables; a variable without one has tangent
zero. -/
def forward (roots : List Handle) (seeds : Tangents) : DiffM (List Handle) := do
  sync
  let order ← consult fun w => w.graph.order roots
  let zero ← literal 0.0
  let tangents ← order.foldlM (sweepForward seeds zero) {}
  roots.mapM (tangentOf tangents)

end DiffM

end ExprGraph
