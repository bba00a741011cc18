import Mathlib
import ExprGraph.Interpretation
import ExprGraph.Node

/-!
# Exact interpretations

Interpretations in a field that read arithmetic as the operations of the field.  All operators
beside arithmetic, powers, equality and selection may mean any function.
-/

namespace ExprGraph

/-- The laws of an interpretation that computes exactly in a field. -/
structure Interpretation.Exact {K : Type} [Field K] (interp : Interpretation K) : Prop where
  literal_zero {v : Float} : isZeroLiteral v = true → interp.literal v = 0
  literal_one : interp.literal 1.0 = 1
  literal_neg_one : interp.literal (-1.0) = -1
  /-- No other literal reads as zero. -/
  literal_ne_zero {v : Float} : isZeroLiteral v = false → interp.literal v ≠ 0
  add (a b : K) : interp.binary .add a b = a + b
  sub (a b : K) : interp.binary .sub a b = a - b
  mul (a b : K) : interp.binary .mul a b = a * b
  div (a b : K) : interp.binary .div a b = a / b
  neg (a : K) : interp.unary .neg a = -a
  pow_zero (a : K) : interp.binary .pow a 0 = 1
  pow_one (a : K) : interp.binary .pow a 1 = a
  eq_comm (a b : K) : interp.binary .eq a b = interp.binary .eq b a
  ne_comm (a b : K) : interp.binary .ne a b = interp.binary .ne b a
  choose_zero (a b : K) : interp.choose 0 a b = b
  choose_ne_zero {c : K} (a b : K) : c ≠ 0 → interp.choose c a b = a

end ExprGraph
