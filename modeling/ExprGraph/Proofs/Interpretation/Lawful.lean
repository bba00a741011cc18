import Mathlib
import ExprGraph.Derivative.Rule
import ExprGraph.Interpretation.Exact
import ExprGraph.Proofs.Graph.Evaluation

/-!
# Lawful interpretations

The laws that the identities of the operators and the chain rule rely on, over any commutative ring.
An exact interpretation in a field has them, and so has the interpretation over dual numbers that
carries the rules of differentiation along: a lawful interpretation can be differentiated any number
of times.
-/

namespace ExprGraph

namespace Interpretation

/-- What has to hold of an interpretation for rewriting by identities to keep its values. -/
structure Lawful {R : Type} [CommRing R] (interp : Interpretation R) : Prop where
  literal_zero {v : Float} : isZeroLiteral v = true → interp.literal v = 0
  literal_one : interp.literal 1.0 = 1
  literal_neg_one : interp.literal (-1.0) = -1
  add (a b : R) : interp.binary .add a b = a + b
  sub (a b : R) : interp.binary .sub a b = a - b
  mul (a b : R) : interp.binary .mul a b = a * b
  neg (a : R) : interp.unary .neg a = -a
  div_one (a : R) : interp.binary .div a 1 = a
  div_neg_one (a : R) : interp.binary .div a (-1) = -a
  zero_div (b : R) : interp.binary .div 0 b = 0
  pow_zero (a : R) : interp.binary .pow a 0 = 1
  pow_one (a : R) : interp.binary .pow a 1 = a
  eq_comm (a b : R) : interp.binary .eq a b = interp.binary .eq b a
  ne_comm (a b : R) : interp.binary .ne a b = interp.binary .ne b a
  /-- A condition takes the same branch whatever the branches are. -/
  choose_cases (c : R) :
    (∀ a b, interp.choose c a b = a) ∨ (∀ a b, interp.choose c a b = b)
  choose_zero (a b : R) : interp.choose 0 a b = b
  choose_literal {v : Float} : isZeroLiteral v = false →
    ∀ a b, interp.choose (interp.literal v) a b = a

/-- Exact interpretations are lawful. -/
theorem Exact.lawful {K : Type} [Field K] {interp : Interpretation K} (hinterp : interp.Exact) :
    interp.Lawful where
  literal_zero := hinterp.literal_zero
  literal_one := hinterp.literal_one
  literal_neg_one := hinterp.literal_neg_one
  add := hinterp.add
  sub := hinterp.sub
  mul := hinterp.mul
  neg := hinterp.neg
  div_one a := by rw [hinterp.div, div_one]
  div_neg_one a := by rw [hinterp.div, div_neg, div_one]
  zero_div b := by rw [hinterp.div, zero_div]
  pow_zero := hinterp.pow_zero
  pow_one := hinterp.pow_one
  eq_comm := hinterp.eq_comm
  ne_comm := hinterp.ne_comm
  choose_cases c := by
    by_cases hc : c = 0
    · apply Or.inr
      intro a b
      rw [hc, hinterp.choose_zero]
    · exact .inl fun a b => hinterp.choose_ne_zero a b hc
  choose_zero := hinterp.choose_zero
  choose_literal hv a b := hinterp.choose_ne_zero a b (hinterp.literal_ne_zero hv)

end Interpretation

namespace Formula

variable {R : Type} [Zero R]

/-- The value of a formula over a node and its operands. -/
def value (interp : Interpretation R) (self : R) (args : List R) : Formula → R
  | .self => self
  | .operand index => args.getD index 0
  | .literal v => interp.literal v
  | .unary op a => interp.unary op (a.value interp self args)
  | .binary op a b => interp.binary op (a.value interp self args) (b.value interp self args)
  | .select c a b =>
    interp.choose (c.value interp self args) (a.value interp self args) (b.value interp self args)
  | .after _ b => b.value interp self args

end Formula

namespace Interpretation

variable {R : Type}

/-- The value of an operator at some operands; zero when it does not take that many. -/
def apply [Zero R] (interp : Interpretation R) (op : Op) (args : List R) : R :=
  (interp.applied? op args).getD 0

/-- The value of the local partial derivative of an operator by one of its operands. -/
def slope [Zero R] (interp : Interpretation R) (op : Op) (args : List R) (index : Nat) : R :=
  (op.partialBy index).value interp (interp.apply op args) args

variable [CommRing R]

/-- The interpretation over dual numbers.  The tangent of an operator is the sum of its slopes times
the tangents of its operands. -/
def jet (interp : Interpretation R) : Interpretation (DualNumber R) where
  literal v := .inl (interp.literal v)
  unary op a :=
    .inl (interp.unary op a.fst) + .inr (interp.slope op [a.fst] 0 * a.snd)
  binary op a b :=
    .inl (interp.binary op a.fst b.fst) +
      .inr (interp.slope op [a.fst, b.fst] 0 * a.snd + interp.slope op [a.fst, b.fst] 1 * b.snd)
  choose c a b :=
    .inl (interp.choose c.fst a.fst b.fst) +
      .inr (interp.slope .ifElse [c.fst, a.fst, b.fst] 0 * c.snd +
        interp.slope .ifElse [c.fst, a.fst, b.fst] 1 * a.snd +
        interp.slope .ifElse [c.fst, a.fst, b.fst] 2 * b.snd)

/-- Dropping tangents is a map of interpretations. -/
theorem jet_morphism (interp : Interpretation R) :
    Morphism TrivSqZeroExt.fst interp.jet interp where
  literal v := by simp [jet]
  unary _ a := by simp [jet]
  binary _ a b := by simp [jet]
  choose c a b := by simp [jet]

namespace Lawful

variable {interp : Interpretation R}

theorem literal_zero_pos (hinterp : interp.Lawful) : interp.literal 0.0 = 0 :=
  hinterp.literal_zero (by decide)

/-- The slopes of a selection are those of the branch it takes. -/
theorem slope_ifElse (hinterp : interp.Lawful) (c a b : R) :
    interp.slope .ifElse [c, a, b] 0 = 0 ∧
      interp.slope .ifElse [c, a, b] 1 = interp.choose c 1 0 ∧
      interp.slope .ifElse [c, a, b] 2 = interp.choose c 0 1 := by
  refine ⟨?_, ?_, ?_⟩ <;>
    simp [slope, Op.partialBy, Formula.value, hinterp.literal_zero_pos, hinterp.literal_one]

/-- A lawful interpretation is lawful over dual numbers. -/
theorem jet (hinterp : interp.Lawful) : interp.jet.Lawful where
  literal_zero hv := by
    simp [Interpretation.jet, hinterp.literal_zero hv]
  literal_one := by simp [Interpretation.jet, hinterp.literal_one]
  literal_neg_one := by simp [Interpretation.jet, hinterp.literal_neg_one]
  add a b := by
    apply TrivSqZeroExt.ext <;>
      simp [Interpretation.jet, slope, Op.partialBy, Formula.value, hinterp.add,
        hinterp.literal_one]
  sub a b := by
    apply TrivSqZeroExt.ext <;>
      simp [Interpretation.jet, slope, Op.partialBy, Formula.value, hinterp.sub,
        hinterp.literal_one, hinterp.literal_neg_one, sub_eq_add_neg]
  mul a b := by
    apply TrivSqZeroExt.ext
    · simp [Interpretation.jet, hinterp.mul]
    · simp [Interpretation.jet, slope, Op.partialBy, Formula.value, add_comm, mul_comm]
  neg a := by
    apply TrivSqZeroExt.ext <;>
      simp [Interpretation.jet, slope, Op.partialBy, Formula.value, hinterp.neg,
        hinterp.literal_neg_one]
  div_one a := by
    apply TrivSqZeroExt.ext <;>
      simp [Interpretation.jet, slope, Op.partialBy, Formula.value, hinterp.div_one,
        hinterp.literal_one]
  div_neg_one a := by
    apply TrivSqZeroExt.ext <;>
      simp [Interpretation.jet, slope, Op.partialBy, Formula.value, hinterp.div_neg_one,
        hinterp.literal_one]
  zero_div b := by
    apply TrivSqZeroExt.ext <;>
      simp [Interpretation.jet, slope, Op.partialBy, Formula.value, apply, applied?,
        hinterp.zero_div, hinterp.neg]
  pow_zero a := by
    apply TrivSqZeroExt.ext <;>
      simp [Interpretation.jet, slope, Op.partialBy, Formula.value, hinterp.pow_zero, hinterp.mul]
  pow_one a := by
    apply TrivSqZeroExt.ext <;>
      simp [Interpretation.jet, slope, Op.partialBy, Formula.value, hinterp.pow_one, hinterp.mul,
        hinterp.sub, hinterp.pow_zero, hinterp.literal_one]
  eq_comm a b := by
    apply TrivSqZeroExt.ext <;>
      simp [Interpretation.jet, slope, Op.partialBy, Formula.value, hinterp.literal_zero_pos,
        hinterp.eq_comm a.fst b.fst]
  ne_comm a b := by
    apply TrivSqZeroExt.ext <;>
      simp [Interpretation.jet, slope, Op.partialBy, Formula.value, hinterp.literal_zero_pos,
        hinterp.ne_comm a.fst b.fst]
  choose_cases c := by
    rcases hinterp.choose_cases c.fst with hfirst | hsecond
    · apply Or.inl
      intro a b
      apply TrivSqZeroExt.ext <;> simp [Interpretation.jet, hinterp.slope_ifElse, hfirst]
    · apply Or.inr
      intro a b
      apply TrivSqZeroExt.ext <;> simp [Interpretation.jet, hinterp.slope_ifElse, hsecond]
  choose_zero a b := by
    apply TrivSqZeroExt.ext <;>
      simp [Interpretation.jet, hinterp.slope_ifElse, hinterp.choose_zero]
  choose_literal hv a b := by
    apply TrivSqZeroExt.ext <;>
      simp [Interpretation.jet, hinterp.slope_ifElse, hinterp.choose_literal hv]

end Lawful

/-- An exact interpretation in the rational numbers. -/
def rational : Interpretation ℚ where
  literal v :=
    if isZeroLiteral v then 0
    else if v = 1.0 then 1
    else if v = -1.0 then -1
    else if v = 0.5 then 1 / 2
    else if v = 1.0 / 3.0 then 1 / 3
    else 2
  unary op a := if op = .neg then -a else 0
  binary op a b :=
    match op with
    | .add => a + b
    | .sub => a - b
    | .mul => a * b
    | .div => a / b
    | .pow => if b = 0 then 1 else a
    | .eq => if a = b then 1 else 0
    | .ne => if a = b then 0 else 1
    | _ => 0
  choose c a b := if c = 0 then b else a

theorem rational_exact : rational.Exact where
  literal_zero hv := by simp [rational, hv]
  literal_one := by decide
  literal_neg_one := by decide
  literal_ne_zero {v} hv := by
    have hliteral : rational.literal v = if v = 1.0 then 1 else if v = -1.0 then -1
        else if v = 0.5 then 1 / 2 else if v = 1.0 / 3.0 then 1 / 3 else 2 := by
      simp only [rational, hv, Bool.false_eq_true, if_false]
    rw [hliteral]
    split_ifs <;> norm_num
  add a b := rfl
  sub a b := rfl
  mul a b := rfl
  div a b := rfl
  neg a := rfl
  pow_zero a := rfl
  pow_one a := by simp [rational]
  eq_comm a b := if_congr eq_comm rfl rfl
  ne_comm a b := if_congr eq_comm rfl rfl
  choose_zero a b := rfl
  choose_ne_zero a b hc := if_neg hc

theorem rational_half : rational.literal 0.5 = 1 / 2 := by
  simp only [rational]
  rw [if_neg (by decide), if_neg (by decide), if_neg (by decide), if_pos trivial]

theorem rational_third : rational.literal (1.0 / 3.0) = 1 / 3 := by
  simp only [rational]
  rw [if_neg (by decide), if_neg (by decide), if_neg (by decide), if_neg (by decide),
    if_pos trivial]

end Interpretation

end ExprGraph
