import Mathlib
import ExprGraph.Proofs.Graph.Canonical
import ExprGraph.Proofs.Scalar.Commutation

/-!
# Commutative operators

The two orders of the operands of a commutative operator are built to the same node, in all cases
but one.  The sum of a positive and a negative zero is, by the identities of addition, the operand
that is not looked at first; so it is the second of the two as they are written.
-/

namespace ExprGraph

namespace Op

/-- Operands are stored in one order. -/
theorem arrange_swap {op : Op} (hop : op.isCommutative = true) {a b : Handle}
    (hab : a.slot ≠ b.slot) : op.arrange [a, b] = op.arrange [b, a] := by
  rcases Nat.lt_or_gt_of_ne hab with hlt | hlt
  · rw [arrange_of_le hlt.le, arrange_of_swap hop hlt]
  · rw [arrange_of_swap hop hlt, arrange_of_le hlt.le]

end Op

namespace Graph

variable {g : Graph} {op : Op} {a b : Handle}

theorem settle_eq (g : Graph) (op : Op) (args : List Handle) :
    g.settle op args =
      match g.settledLiteral? op args with
      | some v => g.literal v
      | none => g.share ⟨op, op.arrange args⟩ := by
  rw [settle, settledLiteral?]
  cases (if g.folds then g.literalValues? args else none) <;> rfl

/-- Two literals fold to the same literal in both orders. -/
theorem settledLiteral?_swap (hop : op.isCommutative = true) (a b : Handle) :
    g.settledLiteral? op [a, b] = g.settledLiteral? op [b, a] := by
  have hvalues : (g.literalValues? [a, b]).map op.eval = (g.literalValues? [b, a]).map op.eval := by
    simp only [literalValues?]
    split
    · next u ha =>
      split
      · next v hb => exact congrArg some (evalBinary_comm hop u v)
      · rfl
    · split <;> rfl
  rw [settledLiteral?, settledLiteral?]
  split
  · exact hvalues
  · rfl

theorem settle_swap (hop : op.isCommutative = true) (ha : g.Live a) (hb : g.Live b) :
    g.settle op [a, b] = g.settle op [b, a] := by
  by_cases hab : a = b
  · rw [hab]
  · have harrange := Op.arrange_swap hop (mt (eq_of_slot_eq ha hb) hab)
    rw [settle_eq, settle_eq, settledLiteral?_swap hop, harrange]

/-- The operands are the two zeros. -/
def ZeroPair (g : Graph) (a b : Handle) : Prop :=
  g.isZero a = true ∧ g.isZero b = true ∧ a ≠ b

/-- The identities of a commutative operator make the same of both orders of its operands, unless
they are looking at a sum of the two zeros. -/
theorem WellFormed.simplify_swap (hg : g.WellFormed) (hop : op.isCommutative = true)
    (hpair : ¬(op = .add ∧ g.ZeroPair a b)) : g.simplify op [a, b] = g.simplify op [b, a] := by
  by_cases hab : a = b
  · rw [hab]
  · cases op with
    | add =>
        have hzero : ¬(g.isZero a = true ∧ g.isZero b = true) :=
          fun hboth => hpair ⟨rfl, hboth.1, hboth.2, hab⟩
        simp only [simplify]
        split_ifs with ha hb
        · exact absurd ⟨ha, hb⟩ hzero
        all_goals rfl
    | mul =>
        -- one and minus one have one node each
        have hone : ¬(g.isOne a = true ∧ g.isOne b = true) := fun hboth =>
          hab (hg.eq_of_node_lit (isOne_iff.mp hboth.1) (isOne_iff.mp hboth.2))
        have hnegOne : ¬(g.isNegOne a = true ∧ g.isNegOne b = true) := fun hboth =>
          hab (hg.eq_of_node_lit (isNegOne_iff.mp hboth.1) (isNegOne_iff.mp hboth.2))
        simp only [simplify, Bool.or_comm (g.isZero a)]
        split_ifs
        all_goals first
          | rfl
          | exact absurd ⟨‹g.isOne a = true›, ‹g.isOne b = true›⟩ hone
          | exact absurd ⟨‹g.isNegOne a = true›, ‹g.isNegOne b = true›⟩ hnegOne
    | eq => rfl
    | ne => rfl
    | _ => cases hop

theorem build_of_keep {args : List Handle} (hkeep : g.simplify op args = .keep) :
    g.build op args = g.settle op args := by
  rw [build, hkeep]

/-- What is built of two nodes does not depend on their order. -/
theorem WellFormed.build_swap (hg : g.WellFormed) (hop : op.isCommutative = true)
    (ha : g.Live a) (hb : g.Live b) (hpair : ¬(op = .add ∧ g.ZeroPair a b)) :
    g.build op [a, b] = g.build op [b, a] := by
  have hsame := hg.simplify_swap hop hpair
  cases hsimplify : g.simplify op [a, b] with
  | keep =>
      rw [build_of_keep hsimplify, build_of_keep (hsame.symm.trans hsimplify)]
      exact settle_swap hop ha hb
  | _ => rw [build, build, ← hsame, hsimplify]

/-- The sum of the two zeros is the one that is written second. -/
theorem build_add_of_isZero (ha : g.isZero a = true) : g.build .add [a, b] = (b, g) := by
  simp only [build, simplify, ha, if_true]

/-- So the order shows when the two zeros are added. -/
theorem ZeroPair.build_ne (hzeros : g.ZeroPair a b) :
    (g.build .add [a, b]).1 ≠ (g.build .add [b, a]).1 := by
  obtain ⟨ha, hb, hne⟩ := hzeros
  rw [build_add_of_isZero ha, build_add_of_isZero hb]
  exact hne.symm

end Graph

end ExprGraph
