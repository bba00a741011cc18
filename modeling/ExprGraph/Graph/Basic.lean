import ExprGraph.Error
import Std.Data.HashMap

/-!
# Graphs

A graph owns its nodes in the order they were made, and two tables that find the node of a literal
or of an application again.  Clearing a graph drops all nodes and begins a new epoch; handles carry
the epoch, so a handle from before is refused.

Slots are handed out anew after a clear: the slots in use before it come first, from the highest
down, and only then fresh ones above them.  `recycle` describes that numbering.  It is its own
inverse, so it also leads from a slot back to the place of a node in the order of making.
-/

namespace ExprGraph

/-- The places below `count` in reverse, and every other place as it is. -/
def recycle (count place : Nat) : Nat :=
  if place < count then count - 1 - place else place

theorem recycle_recycle (count place : Nat) : recycle count (recycle count place) = place := by
  unfold recycle
  by_cases hplace : place < count
  · rw [if_pos hplace, if_pos (by omega)]
    omega
  · rw [if_neg hplace, if_neg hplace]

/-- A graph of expressions that share their common parts. -/
structure Graph where
  /-- The identity that handles of this graph carry. -/
  id : UInt32
  /-- The number of clears. -/
  epoch : UInt32 := 0
  /-- Whether an operation on literals is evaluated when it is built. -/
  folds : Bool := true
  /-- The number of slots that were in use in earlier epochs. -/
  recycled : Nat := 0
  /-- The nodes of this epoch, in the order they were made. -/
  nodes : Array Node := #[]
  /-- The node of every literal, by its bits. -/
  literals : Std.HashMap UInt64 Handle := {}
  /-- The node of every operation, by operator and operands. -/
  operations : Std.HashMap Application Handle := {}
  /-- The id of the next variable. -/
  nextVariable : Nat := 1

namespace Graph

/-- The number of nodes. -/
def size (g : Graph) : Nat := g.nodes.size

/-- The handle of the node at a place in the order of making. -/
def handleAt (g : Graph) (place : Nat) : Handle :=
  { slot := recycle g.recycled place, epoch := g.epoch, graph := g.id }

/-- The place in the order of making that a handle of this epoch leads to. -/
def placeOf (g : Graph) (h : Handle) : Nat := recycle g.recycled h.slot

/-- The node of a handle.  A handle of another graph is foreign; of the others, one that leads to
no node of this epoch is stale. -/
def node (g : Graph) (h : Handle) : Except GraphError Node :=
  if h.graph ≠ g.id then .error .foreignNode
  else if h.epoch ≠ g.epoch then .error (.staleNode h.epoch g.epoch)
  else
    match g.nodes[g.placeOf h]? with
    | some n => .ok n
    | none => .error (.staleNode h.epoch g.epoch)

/-- Whether a handle names a node of the graph. -/
def Live (g : Graph) (h : Handle) : Prop := ∃ n, g.node h = .ok n

/-- Succeeds when every handle names a node, and gives the error of the first one that does not. -/
def validate (g : Graph) : List Handle → Except GraphError Unit
  | [] => .ok ()
  | h :: rest => do
    let _ ← g.node h
    g.validate rest

/-- The id and name of a variable. -/
def variableAt (g : Graph) (h : Handle) : Except GraphError (Nat × String) := do
  match ← g.node h with
  | .var id name => .ok (id, name)
  | other => .error (.notDifferentiable other.describe)

/-- Succeeds when every handle names a variable, and gives the error of the first one that does
not. -/
def expectVariables (g : Graph) : List Handle → Except GraphError Unit
  | [] => .ok ()
  | h :: rest => do
    let _ ← g.variableAt h
    g.expectVariables rest

/-- The value of a literal; nothing for any other node. -/
def literal? (g : Graph) (h : Handle) : Except GraphError (Option Float) := do
  return (← g.node h).literal?

/-- Whether a predicate holds of the node of a handle; false when there is none. -/
def holds (g : Graph) (p : Node → Bool) (h : Handle) : Bool :=
  match g.node h with
  | .ok n => p n
  | .error _ => false

/-- Whether a handle names a zero literal. -/
def isZero (g : Graph) (h : Handle) : Bool := g.holds Node.isZero h

/-- Whether a handle names the literal one. -/
def isOne (g : Graph) (h : Handle) : Bool := g.holds Node.isOne h

/-- Whether a handle names the literal minus one. -/
def isNegOne (g : Graph) (h : Handle) : Bool := g.holds Node.isNegOne h

/-- A graph without nodes. -/
def empty (id : UInt32) (folds : Bool) : Graph := { id, folds }

/-- The graph without its nodes, in the next epoch. -/
def clear (g : Graph) : Graph :=
  { g with
    epoch := g.epoch + 1
    recycled := max g.recycled g.nodes.size
    nodes := #[]
    literals := {}
    operations := {} }

@[simp] theorem placeOf_handleAt (g : Graph) (place : Nat) :
    g.placeOf (g.handleAt place) = place :=
  recycle_recycle g.recycled place

theorem node_handleAt (g : Graph) {place : Nat} (hplace : place < g.nodes.size) :
    g.node (g.handleAt place) = .ok g.nodes[place] := by
  have hfound : g.nodes[g.placeOf (g.handleAt place)]? = some g.nodes[place] := by
    simp [hplace]
  unfold node
  rw [hfound]
  simp [handleAt]

/-- A handle that names a node is the handle of that node's place. -/
theorem eq_handleAt_of_node {g : Graph} {h : Handle} {n : Node} (hn : g.node h = .ok n) :
    h = g.handleAt (g.placeOf h) ∧ g.nodes[g.placeOf h]? = some n := by
  unfold node at hn
  split at hn
  · cases hn
  · next hgraph =>
    split at hn
    · cases hn
    · next hepoch =>
      split at hn
      · next found hfound =>
        cases hn
        refine ⟨?_, hfound⟩
        have hslot : recycle g.recycled (g.placeOf h) = h.slot := recycle_recycle _ _
        cases h
        simp_all [handleAt]
      · cases hn

end Graph

end ExprGraph
