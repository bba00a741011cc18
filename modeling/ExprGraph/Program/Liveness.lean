import ExprGraph.Graph.Postorder

/-!
# Liveness

The values of an order that are needed after one of its nodes has been computed.  A value is live
from its own computation until its last user has been computed; an output is live to the end.
-/

namespace ExprGraph

namespace Graph

/-- Whether a value is needed after the nodes before `rest` have been computed. -/
def neededAfter (g : Graph) (outputs rest : List Handle) (h : Handle) : Bool :=
  outputs.contains h || rest.any fun user => (g.argsOf user).contains h

/-- The live values right after node number `index` of an order. -/
def liveAfter (g : Graph) (order outputs : List Handle) (index : Nat) : List Handle :=
  (order.take (index + 1)).filter (g.neededAfter outputs (order.drop (index + 1)))

/-- The greatest number of values that are live at once. -/
def peakLive (g : Graph) (order outputs : List Handle) : Nat :=
  ((List.range order.length).map fun index => (g.liveAfter order outputs index).length).foldl max 0

theorem length_liveAfter_le (g : Graph) (order outputs : List Handle) (index : Nat) :
    (g.liveAfter order outputs index).length ≤ index + 1 := by
  refine Nat.le_trans (List.length_filter_le _ _) ?_
  rw [List.length_take]
  exact Nat.min_le_left _ _

end Graph

end ExprGraph
