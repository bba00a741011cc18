import ExprGraph.Derivative.Memo

/-!
# Reverse differentiation

Adjoints flow from users to operands.  The adjoint of a node is the sum of what its users
contribute, so a node is passed only after all of them; nodes that no requested variable lies below
take no part.
-/

namespace ExprGraph

namespace DiffM

/-- The nodes of an order that some of the wanted variables lie below. -/
def activeNodes (g : Graph) (wanted : List Handle) :
    List Handle → Std.HashSet Handle → Except GraphError (Std.HashSet Handle)
  | [], active => .ok active
  | node :: rest, active => do
    let isActive := match ← g.node node with
      | .var .. => wanted.contains node
      | .lit _ => false
      | .app app => app.args.any active.contains
    activeNodes g wanted rest (if isActive then active.insert node else active)

/-- The adjoints under construction. -/
structure Adjoints where
  /-- The terms that the users of a node have contributed so far. -/
  terms : Std.HashMap Handle (List Handle) := {}
  /-- The adjoints of variables. -/
  totals : Std.HashMap Handle Handle := {}

/-- Adds a term to the adjoint of a node. -/
def Adjoints.contribute (adj : Adjoints) (node term : Handle) : Adjoints :=
  { adj with terms := adj.terms.insert node ((adj.terms[node]?).getD [] ++ [term]) }

/-- Seeds the adjoints of the active roots. -/
def seedAdjoints (g : Graph) (active : Std.HashSet Handle) :
    List (Handle × Handle) → Adjoints → Adjoints
  | [], adj => adj
  | (root, seed) :: rest, adj =>
    seedAdjoints g active rest
      (if active.contains root && !g.isZero seed then adj.contribute root seed else adj)

/-- Passes the adjoint of a node on to its active operands from number `index` on. -/
def distribute (active : Std.HashSet Handle) (node : Handle) (app : Application)
    (adjoint : Handle) : Nat → List Handle → Adjoints → DiffM Adjoints
  | _, [], adj => pure adj
  | index, arg :: rest, adj => do
    if active.contains arg then
      let p ← partialOf node app index
      if ← isZero p then
        distribute active node app adjoint (index + 1) rest adj
      else
        let term ← operation .mul [p, adjoint]
        distribute active node app adjoint (index + 1) rest (adj.contribute arg term)
    else
      distribute active node app adjoint (index + 1) rest adj

/-- Passes one node of a reverse sweep. -/
def sweepReverse (active : Std.HashSet Handle) (adj : Adjoints) (node : Handle) :
    DiffM Adjoints := do
  match adj.terms[node]? with
  | none => pure adj
  | some terms =>
    let adj := { adj with terms := adj.terms.erase node }
    let adjoint ← onGraph (BuildM.sum terms)
    match ← inspect fun g => g.node node with
    | .var .. => pure { adj with totals := adj.totals.insert node adjoint }
    | .lit _ => pure adj
    | .app app => distribute active node app adjoint 0 app.args adj

/-- The adjoints of some variables, given the adjoints of the roots; zero for a variable below no
root. -/
def reverse (roots seeds vars : List Handle) : DiffM (List Handle) := do
  sync
  let order ← consult fun w => w.graph.order roots
  let active ← inspect fun g => activeNodes g vars order {}
  let seeded ← consult fun w => .ok (seedAdjoints w.graph active (roots.zip seeds) {})
  let adj ← order.reverse.foldlM (sweepReverse active) seeded
  let zero ← literal 0.0
  pure (vars.map fun var => (adj.totals[var]?).getD zero)

end DiffM

end ExprGraph
