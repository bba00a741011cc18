import Mathlib
import ExprGraph.Node
import ExprGraph.Proofs.Scalar.Commutation
import ExprGraph.Proofs.Scalar.Packing

/-!
# Weights of one and zero

A sum of two numbers, one weighted by one and the other by zero, is meant to be the first of them.
In double precision that is so as long as the other is finite; the product of zero with an infinity
or with `nan` is `nan`, and so is the sum.
-/

namespace ExprGraph

open Float.Model Float.Model.UnpackedFloat

/-- Equality of numbers in which zeros of either sign agree, and so do all `nan`s. -/
def SameNumber (u v : Float) : Prop := (u == v) = true ∨ (u.isNaN = true ∧ v.isNaN = true)

instance (u v : Float) : Decidable (SameNumber u v) := inferInstanceAs (Decidable (_ ∨ _))

theorem SameNumber.refl (u : Float) : SameNumber u u := by
  have hexponent : ∀ e : Int, compare e e = .eq := fun e => Std.ReflCmp.compare_self
  have hmantissa : ∀ m : Nat, compare m m = .eq := fun m => Std.ReflCmp.compare_self
  change UnpackedFloat.beq u.toModel.unpack u.toModel.unpack = true ∨
    u.toModel.unpack.isNaN = true ∧ u.toModel.unpack.isNaN = true
  cases u.toModel.unpack with
  | notANumber => exact .inr ⟨rfl, rfl⟩
  | infinity s => cases s <;> exact .inl rfl
  | zero s => exact .inl rfl
  | finite s m e hm =>
      left
      cases s <;>
        simp only [UnpackedFloat.beq, UnpackedFloat.compare, hexponent, hmantissa,
          Ordering.then] <;>
        rfl

/-- Only `nan` is the same number as `nan`. -/
theorem SameNumber.isNaN {u v : Float} (hsame : SameNumber u v) (hu : u.isNaN = true) :
    v.isNaN = true := by
  rcases hsame with hequal | ⟨-, hv⟩
  · change UnpackedFloat.beq u.toModel.unpack v.toModel.unpack = true at hequal
    change u.toModel.unpack.isNaN = true at hu
    cases hunpack : u.toModel.unpack with
    | notANumber =>
        rw [hunpack] at hequal
        cases hequal
    | _ => rw [hunpack] at hu; cases hu
  · exact hv

theorem isZeroLiteral_pack (s : Sign) : isZeroLiteral (Float.ofModel (pack (.zero s))) = true := by
  cases s <;> decide

theorem isNaN_pack : (Float.ofModel (pack .notANumber)).isNaN = true := by
  decide

theorem isZeroLiteral_iff {u : Float} :
    isZeroLiteral u = true ↔ ∃ s, u.toModel.unpack = .zero s := by
  constructor
  · intro hzero
    rcases of_decide_eq_true hzero with rfl | rfl
    · exact ⟨.positive, rfl⟩
    · exact ⟨.negative, rfl⟩
  · rintro ⟨s, hs⟩
    rw [← ofModel_pack_unpack u, hs]
    exact isZeroLiteral_pack s

/-- Zeros of either sign are the same number. -/
theorem sameNumber_of_isZeroLiteral {u v : Float} (hu : isZeroLiteral u = true)
    (hv : isZeroLiteral v = true) : SameNumber u v := by
  rcases of_decide_eq_true hu with rfl | rfl <;> rcases of_decide_eq_true hv with rfl | rfl <;>
    decide

theorem isFinite_of_isZeroLiteral {u : Float} (hu : isZeroLiteral u = true) :
    u.isFinite = true := by
  rcases of_decide_eq_true hu with rfl | rfl <;> decide

theorem float_mul_eq (u v : Float) :
    Float.mul u v =
      Float.ofModel (pack (UnpackedFloat.mul .binary64 u.toModel.unpack v.toModel.unpack)) :=
  rfl

theorem float_add_eq (u v : Float) :
    Float.add u v =
      Float.ofModel (pack (UnpackedFloat.add .binary64 u.toModel.unpack v.toModel.unpack)) :=
  rfl

/-- One times a number is that number, to the last bit. -/
theorem float_one_mul (u : Float) : Float.mul 1.0 u = u := by
  have hone : (1.0 : Float).toModel.unpack = .finite .positive (2 ^ 52) (-52) (by decide) := rfl
  have hsign : ∀ s : Sign, Sign.positive * s = s := fun s => by cases s <;> rfl
  suffices hsame : UnpackedFloat.mul .binary64 (1.0 : Float).toModel.unpack u.toModel.unpack =
      u.toModel.unpack by
    rw [float_mul_eq, hsame, ofModel_pack_unpack]
  rw [hone]
  cases hu : u.toModel.unpack with
  | notANumber => rfl
  | infinity s => exact congrArg _ (hsign s)
  | zero s => exact congrArg _ (hsign s)
  | finite s m e hm =>
      have hexponent : (-52 + e : Int) = e - (52 : Nat) := by omega
      rw [UnpackedFloat.mul, hsign, hexponent]
      exact roundWithAccuracy_of_target hm (targetExponent_of_unpack hu) 52

/-- Zero times a finite number is a zero. -/
theorem float_zero_mul_of_isFinite {u : Float} (hu : u.isFinite = true) :
    isZeroLiteral (Float.mul 0.0 u) = true := by
  have hzero : (0.0 : Float).toModel.unpack = .zero .positive := rfl
  rw [float_mul_eq, hzero]
  change u.toModel.unpack.isFinite = true at hu
  cases hunpack : u.toModel.unpack with
  | notANumber => rw [hunpack] at hu; cases hu
  | infinity s => rw [hunpack] at hu; cases hu
  | zero s => rw [UnpackedFloat.mul]; exact isZeroLiteral_pack _
  | finite s m e hm => rw [UnpackedFloat.mul]; exact isZeroLiteral_pack _

/-- Zero times an infinity or `nan` is `nan`. -/
theorem float_zero_mul_of_not_isFinite {u : Float} (hu : u.isFinite = false) :
    (Float.mul 0.0 u).isNaN = true := by
  have hzero : (0.0 : Float).toModel.unpack = .zero .positive := rfl
  rw [float_mul_eq, hzero]
  change u.toModel.unpack.isFinite = false at hu
  cases hunpack : u.toModel.unpack with
  | notANumber => exact isNaN_pack
  | infinity s => exact isNaN_pack
  | zero s => rw [hunpack] at hu; cases hu
  | finite s m e hm => rw [hunpack] at hu; cases hu

/-- What is added to a zero stays the same number. -/
theorem sameNumber_zero_add {z : Float} (hz : isZeroLiteral z = true) (u : Float) :
    SameNumber (Float.add z u) u := by
  obtain ⟨s, hs⟩ := isZeroLiteral_iff.mp hz
  by_cases hu : isZeroLiteral u = true
  · obtain ⟨t, ht⟩ := isZeroLiteral_iff.mp hu
    refine sameNumber_of_isZeroLiteral ?_ hu
    rw [float_add_eq, hs, ht]
    cases s <;> cases t <;> decide
  · suffices hsame : UnpackedFloat.add .binary64 (.zero s) u.toModel.unpack = u.toModel.unpack by
      rw [float_add_eq, hs, hsame, ofModel_pack_unpack]
      exact .refl u
    cases hunpack : u.toModel.unpack with
    | zero t => exact absurd (isZeroLiteral_iff.mpr ⟨t, hunpack⟩) hu
    | _ => rfl

theorem isNaN_add {u : Float} (hu : u.isNaN = true) (v : Float) : (Float.add u v).isNaN = true := by
  change u.toModel.unpack.isNaN = true at hu
  rw [float_add_eq]
  cases hunpack : u.toModel.unpack with
  | notANumber => exact isNaN_pack
  | _ => rw [hunpack] at hu; cases hu

/-- A number is `term` when it is taken with weight one, and what zero times it comes to when it
is not taken. -/
def Weighs (taken : Bool) (u term : Float) : Prop :=
  if taken then term = u
  else if u.isFinite then isZeroLiteral term = true
  else term.isNaN = true

theorem weighs_mul (taken : Bool) (u : Float) :
    Weighs taken u (Float.mul (Scalar.truth taken) u) := by
  cases taken with
  | true => exact float_one_mul u
  | false =>
      change if u.isFinite then _ else _
      split_ifs with hu
      · exact float_zero_mul_of_isFinite hu
      · exact float_zero_mul_of_not_isFinite (Bool.eq_false_iff.mpr hu)

instance (taken : Bool) (u term : Float) : Decidable (Weighs taken u term) :=
  inferInstanceAs (Decidable (if taken then _ else if u.isFinite then _ else _))

/-- Weighing one gives the weight. -/
theorem weighs_one (taken : Bool) : Weighs taken 1.0 (Scalar.truth taken) := by
  cases taken <;> decide

/-- Weighing minus one gives the negated weight. -/
theorem weighs_neg_one (taken : Bool) : Weighs taken (-1.0) (Float.neg (Scalar.truth taken)) := by
  cases taken <;> decide

/-- A result that is the number taken, unless the other one is an infinity or `nan`: then it is
`nan`. -/
structure Follows (taken other result : Float) : Prop where
  of_isFinite : other.isFinite = true → SameNumber result taken
  of_not_isFinite : other.isFinite = false → result.isNaN = true

namespace Follows

variable {u v s t : Float}

/-- The sum of both products follows the number that is weighted by one. -/
theorem of_add (hu : Weighs true u s) (hv : Weighs false v t) : Follows u v (Float.add s t) := by
  obtain rfl : s = u := hu
  rw [float_add_comm]
  change if v.isFinite then _ else _ at hv
  constructor
  · intro hfinite
    rw [if_pos hfinite] at hv
    exact sameNumber_zero_add hv s
  · intro hother
    rw [hother] at hv
    exact isNaN_add hv s

/-- A product that a zero would be added to. -/
theorem of_taken (hu : Weighs true u s) (hv : isZeroLiteral v = true) : Follows u v s := by
  obtain rfl : s = u := hu
  have hfinite : v.isFinite = true := isFinite_of_isZeroLiteral hv
  exact ⟨fun _ => .refl s, fun hother => absurd hfinite (by rw [hother]; decide)⟩

/-- A product that would be added to a zero. -/
theorem of_other (hu : isZeroLiteral u = true) (hv : Weighs false v t) : Follows u v t := by
  change if v.isFinite then _ else _ at hv
  constructor
  · intro hfinite
    rw [if_pos hfinite] at hv
    exact sameNumber_of_isZeroLiteral hv hu
  · intro hother
    rwa [hother] at hv

/-- No product at all. -/
theorem of_zeros (hu : isZeroLiteral u = true) (hv : isZeroLiteral v = true) : Follows u v 0.0 where
  of_isFinite _ := sameNumber_of_isZeroLiteral (by decide) hu
  of_not_isFinite hother := absurd (isFinite_of_isZeroLiteral hv) (by rw [hother]; decide)

/-- Following the choice between two numbers, by what the condition is. -/
theorem of_choice {w result : Float} (hfirst : (w == 0.0) = false → Follows u v result)
    (hsecond : (w == 0.0) = true → Follows v u result) :
    Follows (Scalar.choose w u v) (Scalar.choose w v u) result := by
  cases hw : w == 0.0 with
  | true =>
      rw [Scalar.choose_of_zero hw, Scalar.choose_of_zero hw]
      exact hsecond hw
  | false =>
      rw [Scalar.choose_of_nonzero hw, Scalar.choose_of_nonzero hw]
      exact hfirst hw

variable {w : Float}

/-- Each number weighted by the indicator of the choice that takes it. -/
theorem choose_add (hu : Weighs (!(w == 0.0)) u s) (hv : Weighs (w == 0.0) v t) :
    Follows (Scalar.choose w u v) (Scalar.choose w v u) (Float.add s t) := by
  refine of_choice (fun hw => ?_) fun hw => ?_ <;> rw [hw] at hu hv
  · exact of_add hu hv
  · rw [float_add_comm]
    exact of_add hv hu

theorem choose_left (hu : Weighs (!(w == 0.0)) u s) (hv : isZeroLiteral v = true) :
    Follows (Scalar.choose w u v) (Scalar.choose w v u) s := by
  refine of_choice (fun hw => ?_) fun hw => ?_ <;> rw [hw] at hu
  · exact of_taken hu hv
  · exact of_other hv hu

theorem choose_right (hu : isZeroLiteral u = true) (hv : Weighs (w == 0.0) v t) :
    Follows (Scalar.choose w u v) (Scalar.choose w v u) t := by
  refine of_choice (fun hw => ?_) fun hw => ?_ <;> rw [hw] at hv
  · exact of_other hu hv
  · exact of_taken hv hu

theorem choose_zeros (hu : isZeroLiteral u = true) (hv : isZeroLiteral v = true) :
    Follows (Scalar.choose w u v) (Scalar.choose w v u) 0.0 :=
  of_choice (fun _ => of_zeros hu hv) fun _ => of_zeros hv hu

end Follows

end ExprGraph
