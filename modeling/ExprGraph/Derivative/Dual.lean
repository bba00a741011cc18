import Mathlib
import ExprGraph.Interpretation

/-!
# Dual numbers

A dual number is a value with its tangent, the rate at which it changes.  Evaluating an expression
over dual numbers differentiates it by the textbook rules, without building anything.
-/

namespace ExprGraph

/-- A value and its tangent. -/
structure Dual (K : Type) where
  value : K
  tangent : K
deriving DecidableEq

namespace Dual

variable {K : Type} [Field K]

/-- A value that does not change. -/
def constant (value : K) : Dual K := ⟨value, 0⟩

/-- The tangent of a unary operator at a dual number. -/
def unaryTangent (interp : Interpretation K) (op : Op) (a : Dual K) : K :=
  let f := interp.unary
  let x := a.value
  let dx := a.tangent
  match op with
  | .neg => -dx
  | .abs => f .sign x * dx
  | .sqrt => dx / (2 * f .sqrt x)
  | .cbrt => dx / (3 * (f .cbrt x * f .cbrt x))
  | .exp => f .exp x * dx
  | .ln => dx / x
  | .sin => f .cos x * dx
  | .cos => -(f .sin x * dx)
  | .tan => (1 + f .tan x * f .tan x) * dx
  | .asin => dx / f .sqrt (1 - x * x)
  | .acos => -(dx / f .sqrt (1 - x * x))
  | .atan => dx / (1 + x * x)
  | .sinh => f .cosh x * dx
  | .cosh => f .sinh x * dx
  | .tanh => (1 - f .tanh x * f .tanh x) * dx
  | _ => 0

/-- The tangent of a binary operator at two dual numbers. -/
def binaryTangent (interp : Interpretation K) (op : Op) (a b : Dual K) : K :=
  let f := interp.binary
  let x := a.value
  let y := b.value
  let dx := a.tangent
  let dy := b.tangent
  match op with
  | .add => dx + dy
  | .sub => dx - dy
  | .mul => dx * y + x * dy
  | .div => (dx * y - x * dy) / (y * y)
  | .pow => y * f .pow x (y - 1) * dx + f .pow x y * interp.unary .ln x * dy
  | .atan2 => (y * dx - x * dy) / (y * y + x * x)
  | .min => f .le x y * dx + f .gt x y * dy
  | .max => f .ge x y * dx + f .lt x y * dy
  | _ => 0

end Dual

/-- The interpretation over dual numbers. -/
def Interpretation.dual {K : Type} [Field K] (interp : Interpretation K) :
    Interpretation (Dual K) where
  literal v := .constant (interp.literal v)
  unary op a := ⟨interp.unary op a.value, Dual.unaryTangent interp op a⟩
  binary op a b := ⟨interp.binary op a.value b.value, Dual.binaryTangent interp op a b⟩
  choose c a b :=
    ⟨interp.choose c.value a.value b.value, interp.choose c.value a.tangent b.tangent⟩

end ExprGraph
