import Mathlib
import ExprGraph.Scalar.Float

/-!
# Operands the other way round

Addition, multiplication and the two tests for equality of double precision numbers do not depend
on the order of their operands, also at zeros, infinities and what is not a number.  So the value of
a commutative operator is the same for both orders.
-/

namespace ExprGraph

open Float.Model Float.Model.UnpackedFloat

theorem sign_mul_comm (s t : Sign) : s * t = t * s := by
  cases s <;> cases t <;> rfl

theorem unpacked_add_comm (spec : Format) (a b : UnpackedFloat) :
    UnpackedFloat.add spec a b = UnpackedFloat.add spec b a := by
  cases a with
  | notANumber => cases b <;> rfl
  | infinity s =>
      cases b with
      | infinity t => cases s <;> cases t <;> rfl
      | _ => rfl
  | zero s =>
      cases b with
      | zero t => cases s <;> cases t <;> rfl
      | _ => rfl
  | finite s m e hm =>
      cases b with
      | finite t n d hn => simp only [UnpackedFloat.add, min_comm e d, add_comm (s.apply _)]
      | _ => rfl

theorem unpacked_mul_comm (spec : Format) (a b : UnpackedFloat) :
    UnpackedFloat.mul spec a b = UnpackedFloat.mul spec b a := by
  cases a <;> cases b <;>
    simp only [UnpackedFloat.mul, sign_mul_comm, Nat.mul_comm, Int.add_comm]

theorem unpacked_compare_swap (a b : UnpackedFloat) :
    UnpackedFloat.compare a b = (UnpackedFloat.compare b a).map Ordering.swap := by
  have hexponent : ∀ e d : Int, compare e d = (compare d e).swap :=
    fun e d => Std.OrientedCmp.eq_swap
  have hmantissa : ∀ m n : Nat, compare m n = (compare n m).swap :=
    fun m n => Std.OrientedCmp.eq_swap
  cases a with
  | notANumber => cases b <;> rfl
  | infinity s =>
      cases b with
      | infinity t => cases s <;> cases t <;> rfl
      | _ => cases s <;> rfl
  | zero s =>
      cases b with
      | infinity t => cases t <;> rfl
      | finite t n d hn => cases t <;> rfl
      | _ => rfl
  | finite s m e hm =>
      cases b with
      | notANumber => rfl
      | infinity t => cases s <;> cases t <;> rfl
      | zero t => cases s <;> rfl
      | finite t n d hn =>
          cases s <;> cases t <;>
            simp [UnpackedFloat.compare, hexponent e d, hmantissa m n, Ordering.swap_then]

theorem unpacked_beq_comm (a b : UnpackedFloat) :
    UnpackedFloat.beq a b = UnpackedFloat.beq b a := by
  rw [UnpackedFloat.beq, UnpackedFloat.beq, unpacked_compare_swap a b]
  rcases UnpackedFloat.compare b a with _ | order
  · rfl
  · cases order <;> rfl

theorem float_add_comm (a b : Float) : Float.add a b = Float.add b a :=
  congrArg (fun sum => Float.ofModel (pack sum))
    (unpacked_add_comm .binary64 a.toModel.unpack b.toModel.unpack)

theorem float_mul_comm (a b : Float) : Float.mul a b = Float.mul b a :=
  congrArg (fun product => Float.ofModel (pack product))
    (unpacked_mul_comm .binary64 a.toModel.unpack b.toModel.unpack)

theorem float_beq_comm (a b : Float) : (a == b) = (b == a) :=
  unpacked_beq_comm a.toModel.unpack b.toModel.unpack

/-- The value of a commutative operator is the same for both orders of its operands. -/
theorem evalBinary_comm {op : Op} (hop : op.isCommutative = true) (a b : Float) :
    op.evalBinary a b = op.evalBinary b a := by
  cases op with
  | add => exact float_add_comm a b
  | mul => exact float_mul_comm a b
  | eq => exact congrArg Scalar.truth (float_beq_comm a b)
  | ne => exact congrArg (fun same => Scalar.truth !same) (float_beq_comm a b)
  | _ => cases hop

end ExprGraph
