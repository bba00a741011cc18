import ExprGraph.Op
import ExprGraph.Decimal.Plain

/-!
# Nodes and handles

A graph is made of nodes: variables, literals, and operators applied to earlier nodes.  A handle
names a node of one graph in one epoch of that graph.
-/

namespace ExprGraph

/-- A name for a node.  It is good for the graph that made it, until that graph is cleared. -/
structure Handle where
  /-- The place of the node among the slots of its graph. -/
  slot : Nat
  /-- The epoch of the graph the node was made in. -/
  epoch : UInt32
  /-- The identity of the graph. -/
  graph : UInt32
deriving DecidableEq, Hashable, Repr, Inhabited

/-- The slot as it is shown, counted from one. -/
def Handle.number (h : Handle) : Nat := h.slot + 1

/-- An operator and its operands, in order. -/
structure Application where
  op : Op
  args : List Handle
deriving DecidableEq, Hashable, Repr

/-- An element of an expression graph. -/
inductive Node where
  /-- A symbolic input.  Its id is its identity; the name is for display. -/
  | var (id : Nat) (name : String)
  | lit (value : Float)
  | app (application : Application)
deriving DecidableEq

/-- Whether a literal is `0.0` or `-0.0`. -/
def isZeroLiteral (v : Float) : Bool := v = 0.0 ∨ v = -0.0

/-- Whether a literal is `1.0`. -/
def isOneLiteral (v : Float) : Bool := v = 1.0

/-- Whether a literal is `-1.0`. -/
def isNegOneLiteral (v : Float) : Bool := v = -1.0

/-- Literals are written with the fewest digits that read back and never with an exponent; of two
equally near decimals the upper one is taken, and a whole number has no decimal point. -/
def literalStyle : PlainStyle := ⟨.up, "", "NaN", "inf"⟩

/-- The text of a literal. -/
def literalText (v : Float) : String := literalStyle.render v

namespace Node

/-- The value of a literal. -/
def literal? : Node → Option Float
  | lit v => some v
  | _ => none

/-- The operator of an operation. -/
def op? : Node → Option Op
  | app a => some a.op
  | _ => none

/-- The operands of an operation; none of anything else. -/
def args : Node → List Handle
  | app a => a.args
  | _ => []

def isVariable : Node → Bool
  | var .. => true
  | _ => false

def isLiteral : Node → Bool
  | lit _ => true
  | _ => false

def isOperation : Node → Bool
  | app _ => true
  | _ => false

/-- Whether the node is a zero literal of either sign. -/
def isZero : Node → Bool
  | lit v => isZeroLiteral v
  | _ => false

/-- Whether the node is the literal one. -/
def isOne : Node → Bool
  | lit v => isOneLiteral v
  | _ => false

/-- Whether the node is the literal minus one. -/
def isNegOne : Node → Bool
  | lit v => isNegOneLiteral v
  | _ => false

/-- A short description for messages. -/
def describe : Node → String
  | var _ name => "variable '" ++ name ++ "'"
  | lit v => "constant " ++ literalText v
  | app a => a.op.name ++ " operation"

end Node

end ExprGraph
