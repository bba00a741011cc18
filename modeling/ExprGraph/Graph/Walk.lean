import ExprGraph.Graph.Basic
import Std.Data.HashSet

/-!
# Walks

A walk presents the nodes below some roots, every node once and after its operands.  It keeps its
pending work in a list, so its depth is not bounded by a call stack.
-/

namespace ExprGraph

/-- A piece of pending work. -/
inductive Visit where
  /-- Look at a node for the first time, unless that has been done. -/
  | enter (h : Handle)
  /-- Present a node whose operands have all been presented. -/
  | leave (h : Handle)
deriving DecidableEq

/-- The state of a walk. -/
structure Walk where
  pending : List Visit
  /-- The nodes that have been entered. -/
  entered : Std.HashSet Handle := {}
  /-- The nodes that have been presented, in order. -/
  order : Array Handle := #[]

namespace Graph

/-- The operands of a node; none of a leaf. -/
def operands (g : Graph) (h : Handle) : Except GraphError (List Handle) := do
  return (← g.node h).args

/-- Runs a walk to its end, given enough steps.  Operands that `skip` accepts are not entered. -/
def walkFrom (g : Graph) (skip : Handle → Bool) : Nat → Walk → Except Failure (List Handle)
  | 0, _ => .error (.fault .exhausted)
  | steps + 1, w =>
    match w.pending with
    | [] => .ok w.order.toList
    | .leave h :: rest => g.walkFrom skip steps { w with pending := rest, order := w.order.push h }
    | .enter h :: rest =>
      if w.entered.contains h then g.walkFrom skip steps { w with pending := rest }
      else
        match g.operands h with
        | .error e => .error (.refused e)
        | .ok args =>
          let entered := w.entered.insert h
          let fresh := args.filter fun a => !entered.contains a && !skip a
          g.walkFrom skip steps
            { w with pending := fresh.map Visit.enter ++ .leave h :: rest, entered }

/-- The steps that suffice for any walk: every node is left once, and is entered once for every
root and for every place where it is an operand. -/
def walkSteps (g : Graph) (roots : List Handle) : Nat := roots.length + 4 * g.size + 1

/-- The nodes below the roots, every node after its operands, without entering what `skip`
accepts. -/
def orderSkipping (g : Graph) (skip : Handle → Bool) (roots : List Handle) :
    Except Failure (List Handle) :=
  g.walkFrom skip (g.walkSteps roots) { pending := roots.map Visit.enter }

/-- The nodes below the roots, every node after its operands. -/
def order (g : Graph) (roots : List Handle) : Except Failure (List Handle) := do
  liftError (g.validate roots)
  g.orderSkipping (fun _ => false) roots

/-- Pairs every handle with its node. -/
def withNodes (g : Graph) : List Handle → Except GraphError (List (Handle × Node))
  | [] => .ok []
  | h :: rest => do
    let n ← g.node h
    return (h, n) :: (← g.withNodes rest)

/-- The nodes below the roots with their handles, in the order of the walk. -/
def walk (g : Graph) (roots : List Handle) : Except Failure (List (Handle × Node)) := do
  liftError (g.withNodes (← g.order roots))

/-- The variables below the roots, in the order of first use. -/
def variablesBelow (g : Graph) (roots : List Handle) : Except Failure (List Handle) := do
  return ((← g.walk roots).filter fun (_, n) => n.isVariable).map Prod.fst

/-- The number of distinct operations below the roots. -/
def operationCount (g : Graph) (roots : List Handle) : Except Failure Nat := do
  return ((← g.walk roots).filter fun (_, n) => n.isOperation).length

end Graph

end ExprGraph
