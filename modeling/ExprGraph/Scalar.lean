import ExprGraph.Op

/-!
# Scalars

A scalar type brings the elementary functions of a floating-point format.  On top of them every
operator has a value: comparisons give one or zero, and an operator applied to the wrong number
of operands gives `nan`.
-/

namespace ExprGraph

/-- The elementary functions of a floating-point format. -/
class Scalar (α : Type) where
  /-- The scalar nearest to a literal. -/
  ofLiteral : Float → α
  zero : α
  one : α
  nan : α
  add : α → α → α
  sub : α → α → α
  mul : α → α → α
  div : α → α → α
  pow : α → α → α
  neg : α → α
  abs : α → α
  /-- The lesser operand; the other operand when one of them is not a number. -/
  min : α → α → α
  /-- The greater operand; the other operand when one of them is not a number. -/
  max : α → α → α
  sqrt : α → α
  cbrt : α → α
  exp : α → α
  ln : α → α
  sin : α → α
  cos : α → α
  tan : α → α
  asin : α → α
  acos : α → α
  atan : α → α
  atan2 : α → α → α
  sinh : α → α
  cosh : α → α
  tanh : α → α
  lt : α → α → Bool
  le : α → α → Bool
  /-- Equality of numbers: zeros of either sign agree, and `nan` agrees with nothing. -/
  same : α → α → Bool

namespace Scalar

variable {α : Type} [Scalar α]

/-- A truth value as a scalar. -/
def truth (b : Bool) : α := if b then one else zero

/-- The sign of a scalar: zero at either zero, and `nan` itself at `nan`. -/
def sign (a : α) : α :=
  if lt zero a then one
  else if lt a zero then neg one
  else if same a zero then zero
  else a

/-- The second branch when the condition is a zero, the first one otherwise. -/
def choose (c a b : α) : α := if same c zero then b else a

theorem choose_of_zero {c : α} (hc : same c zero = true) (a b : α) : choose c a b = b :=
  if_pos hc

theorem choose_of_nonzero {c : α} (hc : same c zero = false) (a b : α) : choose c a b = a :=
  if_neg (by simp [hc])

end Scalar

namespace Op

variable {α : Type} [Scalar α]

/-- The value of an operator at one operand. -/
def evalUnary : Op → α → α
  | neg, a => Scalar.neg a
  | abs, a => Scalar.abs a
  | sign, a => Scalar.sign a
  | sqrt, a => Scalar.sqrt a
  | cbrt, a => Scalar.cbrt a
  | exp, a => Scalar.exp a
  | ln, a => Scalar.ln a
  | sin, a => Scalar.sin a
  | cos, a => Scalar.cos a
  | tan, a => Scalar.tan a
  | asin, a => Scalar.asin a
  | acos, a => Scalar.acos a
  | atan, a => Scalar.atan a
  | sinh, a => Scalar.sinh a
  | cosh, a => Scalar.cosh a
  | tanh, a => Scalar.tanh a
  | _, _ => Scalar.nan

/-- The value of an operator at two operands. -/
def evalBinary : Op → α → α → α
  | add, a, b => Scalar.add a b
  | sub, a, b => Scalar.sub a b
  | mul, a, b => Scalar.mul a b
  | div, a, b => Scalar.div a b
  | pow, a, b => Scalar.pow a b
  | min, a, b => Scalar.min a b
  | max, a, b => Scalar.max a b
  | atan2, a, b => Scalar.atan2 a b
  | lt, a, b => Scalar.truth (Scalar.lt a b)
  | le, a, b => Scalar.truth (Scalar.le a b)
  | gt, a, b => Scalar.truth (Scalar.lt b a)
  | ge, a, b => Scalar.truth (Scalar.le b a)
  | eq, a, b => Scalar.truth (Scalar.same a b)
  | ne, a, b => Scalar.truth (!Scalar.same a b)
  | _, _, _ => Scalar.nan

/-- The value of an operator at three operands. -/
def evalTernary : Op → α → α → α → α
  | ifElse, c, a, b => Scalar.choose c a b
  | _, _, _, _ => Scalar.nan

/-- The value of an operator at a list of operands. -/
def eval (op : Op) : List α → α
  | [a] => op.evalUnary a
  | [a, b] => op.evalBinary a b
  | [c, a, b] => op.evalTernary c a b
  | _ => Scalar.nan

end Op

end ExprGraph
