import ExprGraph.Graph.Build

/-!
# Formulas

A formula is the shape of an expression over a node and its operands.  Local partial derivatives
are given as formulas; building one makes its nodes from left to right, so equal parts of different
formulas become shared nodes of the graph.
-/

namespace ExprGraph

/-- An expression over a node and its operands. -/
inductive Formula where
  /-- The node itself. -/
  | self
  /-- An operand of the node, counted from zero. -/
  | operand (index : Nat)
  | literal (value : Float)
  | unary (op : Op) (a : Formula)
  | binary (op : Op) (a b : Formula)
  /-- The first or second branch, by a condition. -/
  | select (c a b : Formula)
  /-- The second formula, built after the first one. -/
  | after (first second : Formula)
deriving DecidableEq

namespace Formula

/-- Builds a formula over a node and its operands. -/
def build (node : Handle) (args : List Handle) : Formula → BuildM Handle
  | self => pure node
  | operand index =>
    match args[index]? with
    | some a => pure a
    | none => BuildM.fault .missingEntry
  | literal v => BuildM.literal v
  | unary op a => do
    let a ← a.build node args
    BuildM.operation op [a]
  | binary op a b => do
    let a ← a.build node args
    let b ← b.build node args
    BuildM.operation op [a, b]
  | select c a b => do
    let c ← c.build node args
    let a ← a.build node args
    let b ← b.build node args
    BuildM.operation .ifElse [c, a, b]
  | after first second => do
    let _ ← first.build node args
    second.build node args

/-- The product of a formula with itself. -/
def square (a : Formula) : Formula := binary .mul a a

/-- The square root of one minus the square of a formula. -/
def coLeg (a : Formula) : Formula := unary .sqrt (binary .sub (literal 1.0) (square a))

end Formula

end ExprGraph
