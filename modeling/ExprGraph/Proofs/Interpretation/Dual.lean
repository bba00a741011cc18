import Mathlib
import ExprGraph.Derivative.Dual
import ExprGraph.Proofs.Interpretation.Lawful

/-!
# The textbook rules

Over a field the slopes of the operators give the tangents of the textbook rules, so evaluation by
the chain rule and evaluation over dual numbers are the same.
-/

namespace ExprGraph

namespace Interpretation

variable {K : Type} [Field K] {interp : Interpretation K}

/-- A value and its tangent as they stand in a jet. -/
def toDual (z : DualNumber K) : Dual K := ⟨z.fst, z.snd⟩

/-- The slope of a unary operator times a tangent is the tangent by the textbook rule. -/
theorem Exact.slope_unary (hinterp : interp.Exact) (hhalf : interp.literal 0.5 = 1 / 2)
    (hthird : interp.literal (1.0 / 3.0) = 1 / 3) {op : Op} (harity : op.arity = 1) (x dx : K) :
    interp.slope op [x] 0 * dx = Dual.unaryTangent interp op ⟨x, dx⟩ := by
  have hzero := hinterp.lawful.literal_zero_pos
  cases op <;> first
    | exact absurd harity (by decide)
    | simp only [slope, Op.partialBy, Formula.value, Formula.square, Formula.coLeg, apply,
        applied?, Option.getD_some, List.getD_cons_zero, Dual.unaryTangent, hinterp.add,
        hinterp.sub, hinterp.mul, hinterp.div, hinterp.neg, hinterp.literal_one,
        hinterp.literal_neg_one, hzero, hhalf, hthird, one_mul, zero_mul, neg_mul, neg_div, div_div,
        one_div_mul_eq_div]

/-- The quotient rule, also where the divisor is zero. -/
theorem quotient_rule (x y dx dy : K) :
    1 / y * dx + -(x / y / y) * dy = (dx * y - x * dy) / (y * y) := by
  by_cases hy : y = 0
  · rw [hy]
    simp
  · field_simp
    ring

/-- The slopes of a binary operator times two tangents add up to the tangent by the textbook
rule. -/
theorem Exact.slope_binary (hinterp : interp.Exact) {op : Op} (harity : op.arity = 2)
    (x y dx dy : K) :
    interp.slope op [x, y] 0 * dx + interp.slope op [x, y] 1 * dy =
      Dual.binaryTangent interp op ⟨x, dx⟩ ⟨y, dy⟩ := by
  have hzero := hinterp.lawful.literal_zero_pos
  cases op
  case mul =>
      change y * dx + x * dy = dx * y + x * dy
      rw [mul_comm y dx]
  case div =>
      have hslopes : interp.slope .div [x, y] 0 = 1 / y ∧
          interp.slope .div [x, y] 1 = -(x / y / y) := by
        simp [slope, Op.partialBy, Formula.value, apply, applied?, hinterp.div, hinterp.neg,
          hinterp.literal_one]
      rw [hslopes.1, hslopes.2]
      exact quotient_rule x y dx dy
  case atan2 =>
      have hslopes : interp.slope .atan2 [x, y] 0 = y / (y * y + x * x) ∧
          interp.slope .atan2 [x, y] 1 = -(x / (y * y + x * x)) := by
        simp [slope, Op.partialBy, Formula.value, Formula.square, hinterp.add, hinterp.mul,
          hinterp.div, hinterp.neg]
      change _ = (y * dx - x * dy) / (y * y + x * x)
      rw [hslopes.1, hslopes.2]
      ring
  all_goals first
    | exact absurd harity (by decide)
    | simp only [slope, Op.partialBy, Formula.value, apply, applied?, Option.getD_some,
        List.getD_cons_zero, List.getD_cons_succ, Dual.binaryTangent, hinterp.sub, hinterp.mul,
        hinterp.literal_one, hinterp.literal_neg_one, hzero, if_true, if_neg one_ne_zero, neg_mul,
        one_mul, zero_mul, add_zero, sub_eq_add_neg]

/-- A selection passes on the tangent of the branch it takes. -/
theorem Lawful.slope_choose (hinterp : interp.Lawful) (c a b dc da db : K) :
    interp.slope .ifElse [c, a, b] 0 * dc + interp.slope .ifElse [c, a, b] 1 * da +
      interp.slope .ifElse [c, a, b] 2 * db = interp.choose c da db := by
  obtain ⟨hcondition, hfirst, hsecond⟩ := hinterp.slope_ifElse c a b
  rw [hcondition, hfirst, hsecond]
  rcases hinterp.choose_cases c with hchoose | hchoose
  · simp only [hchoose, zero_mul, zero_add, one_mul, add_zero]
  · simp only [hchoose, zero_mul, zero_add, one_mul]

/-- Jets are evaluated by the textbook rules. -/
theorem Exact.toDual_morphism (hinterp : interp.Exact) (hhalf : interp.literal 0.5 = 1 / 2)
    (hthird : interp.literal (1.0 / 3.0) = 1 / 3) :
    Morphism toDual interp.jet interp.dual where
  literal v := by
    simp [toDual, jet, dual, Dual.constant]
  unary {op} harity a := by
    have hslope := hinterp.slope_unary hhalf hthird harity a.fst a.snd
    simp [toDual, jet, dual, hslope]
  binary {op} harity a b := by
    have hslope := hinterp.slope_binary harity a.fst b.fst a.snd b.snd
    simp [toDual, jet, dual, hslope]
  choose c a b := by
    have hslope := hinterp.lawful.slope_choose c.fst a.fst b.fst c.snd a.snd b.snd
    simp [toDual, jet, dual, hslope]

end Interpretation

end ExprGraph
