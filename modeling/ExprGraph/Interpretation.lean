import ExprGraph.Scalar

/-!
# Interpretations

An interpretation says what the literals and operators of an expression mean in some type of
values.  It is the only thing evaluation knows about that type, so a statement about all
interpretations covers floating-point formats, fields, dual numbers and lanes of points alike.
-/

namespace ExprGraph

universe u

/-- The meaning of literals and operators over a type of values. -/
structure Interpretation (α : Type u) where
  literal : Float → α
  unary : Op → α → α
  binary : Op → α → α → α
  /-- The meaning of `ifElse` at condition, first and second branch. -/
  choose : α → α → α → α

namespace Interpretation

/-- The interpretation a scalar type brings along. -/
def ofScalar (α : Type) [Scalar α] : Interpretation α where
  literal := Scalar.ofLiteral
  unary := Op.evalUnary
  binary := Op.evalBinary
  choose := Scalar.choose

/-- The meaning of an operator at a list of operands; `none` when no operator takes operands of
that number, or three operands are given to another operator than `ifElse`. -/
def applied? {α : Type u} (interp : Interpretation α) (op : Op) : List α → Option α
  | [a] => some (interp.unary op a)
  | [a, b] => some (interp.binary op a b)
  | [c, a, b] => if op = .ifElse then some (interp.choose c a b) else none
  | _ => none

end Interpretation

end ExprGraph
