import Mathlib
import ExprGraph.Proofs.Scalar.Packing

/-!
# Negation and subtraction from zero

A double precision number is negated by subtracting it from zero, unless it is the positive zero:
the negation of that is the negative zero, and its difference with itself is the positive one.
-/

namespace ExprGraph

open Float.Model Float.Model.UnpackedFloat

/-- There is only one positive zero. -/
theorem float_eq_zero_of_unpack {x : Float} (hx : x.toModel.unpack = .zero .positive) :
    x = 0.0 := by
  rw [← ofModel_pack_unpack x, hx]
  decide

/-- Subtraction from zero negates every number but the positive zero. -/
theorem zero_sub_eq_neg_iff {x : Float} : Float.sub 0.0 x = Float.neg x ↔ x ≠ 0.0 := by
  constructor
  · rintro hsame rfl
    revert hsame
    decide
  · intro hne
    change Float.ofModel (pack (UnpackedFloat.sub .binary64 (.zero .positive) x.toModel.unpack)) =
      Float.ofModel (pack x.toModel.unpack.neg)
    cases hx : x.toModel.unpack with
    | infinity sign => rfl
    | notANumber => rfl
    | finite sign mantissa exponent => rfl
    | zero sign =>
        cases sign with
        | negative => rfl
        | positive => exact absurd (float_eq_zero_of_unpack hx) hne

end ExprGraph
