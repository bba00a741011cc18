import Mathlib
import ExprGraph.Proofs.Graph.Canonical
import ExprGraph.Proofs.Graph.Replay

/-!
# Graphs in normal form

No identity applies to the operands of a stored application, and in a graph that folds they are not
all literals.  Identities are tried on the operands as they are written and the operands are stored
in order, so this rests on identities not telling the two orders of a commutative operator apart.
An application that is stored is hence found when it is built again.
-/

namespace ExprGraph

namespace Graph

variable {g g' : Graph} {op : Op} {args args' : List Handle}

/-- Operands that are not all literals have one that is none. -/
theorem literalValues?_eq_none_iff :
    g.literalValues? args = none ↔ ∃ a ∈ args, ∀ v, g.node a ≠ .ok (.lit v) := by
  induction args with
  | nil => simp [literalValues?]
  | cons a rest ih =>
      rw [literalValues?]
      split
      · next v hn => simp [hn, ih]
      · next hnone => exact ⟨fun _ => ⟨a, List.mem_cons_self, hnone⟩, fun _ => rfl⟩

/-- An application to which an identity applies is not kept. -/
theorem Identity.simplify_ne_keep {result : Simplified} (hidentity : g.Identity op args result) :
    g.simplify op args ≠ .keep := by
  cases hidentity with
  | zero_add ha => simp [simplify, ha]
  | add_zero hb =>
      simp only [simplify, hb]
      split <;> simp
  | sub_zero hb => simp [simplify, hb]
  | sub_self =>
      simp only [simplify]
      split <;> simp
  | zero_sub ha =>
      simp only [simplify, ha]
      split_ifs <;> simp
  | zero_mul ha => simp [simplify, ha]
  | mul_zero hb => simp [simplify, hb]
  | one_mul ha =>
      simp only [simplify, ha]
      split_ifs <;> simp
  | mul_one hb =>
      simp only [simplify, hb]
      split_ifs <;> simp
  | neg_one_mul ha =>
      simp only [simplify, ha]
      split_ifs <;> simp
  | mul_neg_one hb =>
      simp only [simplify, hb]
      split_ifs <;> simp
  | div_one hb => simp [simplify, hb]
  | div_neg_one hb =>
      simp only [simplify, hb]
      split_ifs <;> simp
  | zero_div ha hb =>
      simp only [simplify, ha, hb]
      split_ifs <;> simp_all
  | pow_zero hb => simp [simplify, hb]
  | pow_one hb =>
      simp only [simplify, hb]
      split_ifs <;> simp
  | neg_neg hn => simp [simplify, hn]
  | choose_self => simp [simplify]
  | choose_zero hn hv =>
      simp only [simplify, hn, hv]
      split_ifs <;> simp
  | choose_literal hn hv =>
      simp only [simplify, hn, hv]
      split_ifs <;> simp

/-- The order of the operands of a commutative operator does not decide whether an identity
applies. -/
theorem simplify_eq_keep_of_rearranges (hargs : op.Rearranges args args')
    (hkeep : g.simplify op args = .keep) : g.simplify op args' = .keep := by
  cases hargs with
  | same => exact hkeep
  | swap hop a b =>
      cases op with
      | add =>
          simp only [simplify] at hkeep ⊢
          split_ifs at hkeep with ha hb
          rw [if_neg hb, if_neg ha]
      | mul =>
          simp only [simplify, Bool.or_eq_true] at hkeep ⊢
          split_ifs at hkeep with hzero ha hb ha' hb'
          rw [if_neg (not_or.mpr (not_or.mp hzero).symm), if_neg hb, if_neg ha, if_neg hb',
            if_neg ha']
      | eq => rfl
      | ne => rfl
      | _ => cases hop

/-- What holds of the stored applications of every graph that calls lead to. -/
structure Normal (g : Graph) : Prop where
  kept {h : Handle} {app : Application} :
    g.node h = .ok (.app app) → g.simplify app.op app.args = .keep
  unfolded {h : Handle} {app : Application} : g.node h = .ok (.app app) → g.folds = true →
    ∃ a ∈ app.args, ∀ v, g.node a ≠ .ok (.lit v)

theorem normal_of_nodes_eq (hnodes : g.nodes = #[]) : g.Normal where
  kept hn := absurd ⟨_, hn⟩ (not_live_of_nodes_eq hnodes _)
  unfolded hn := absurd ⟨_, hn⟩ (not_live_of_nodes_eq hnodes _)

namespace Normal

theorem step (hg : g.Normal) (hwf : g.WellFormed) (hstep : g.Step g') : g'.Normal := by
  have hext := hstep.grows.extends
  have hcases : ∀ {h app}, g'.node h = .ok (.app app) →
      (∀ a ∈ app.args, g.Live a) ∧ g.simplify app.op app.args = .keep ∧
        (g.folds = true → g.literalValues? app.args = none) := by
    intro h app hn
    rcases hstep.node_cases hn with hold | ⟨name, hnew, -⟩ | ⟨v, hnew⟩ |
      ⟨op, args, hnew, hlive, hkeep, hfold⟩
    · exact ⟨fun a ha => hwf.live hold ha, hg.kept hold, fun hfolds =>
        literalValues?_eq_none_iff.mpr (hg.unfolded hold hfolds)⟩
    · cases hnew
    · cases hnew
    · cases hnew
      refine ⟨fun a ha => hlive a (Op.mem_arrange.mp ha),
        simplify_eq_keep_of_rearranges (.arrange op args) hkeep, fun hfolds => ?_⟩
      obtain ⟨a, ha, hliteral⟩ := literalValues?_eq_none_iff.mp (hfold hfolds)
      exact literalValues?_eq_none_iff.mpr ⟨a, Op.mem_arrange.mpr ha, hliteral⟩
  constructor
  · intro h app hn
    obtain ⟨hlive, hkeep, -⟩ := hcases hn
    rw [hext.simplify_eq hlive, hkeep]
  · intro h app hn hfolds
    obtain ⟨hlive, -, hfold⟩ := hcases hn
    rw [hext.folds] at hfolds
    exact literalValues?_eq_none_iff.mp ((hext.literalValues?_eq hlive).trans (hfold hfolds))

theorem grows (hg : g.Normal) (hwf : g.WellFormed) (hgrows : g.Grows g') : g'.Normal := by
  induction hgrows with
  | refl => exact hg
  | tail hfirst hstep ih => exact ih.step (hwf.grows hfirst) hstep

/-- A stored application is found when it is built again. -/
theorem build_eq (hg : g.Normal) (hwf : g.WellFormed) (harranged : g.Arranged) {h : Handle}
    {app : Application} (hn : g.node h = .ok (.app app)) : g.build app.op app.args = (h, g) := by
  have hvalues : (if g.folds then g.literalValues? app.args else none) = none := by
    split
    · next hfolds => exact literalValues?_eq_none_iff.mpr (hg.unfolded hn hfolds)
    · rfl
  rw [build, hg.kept hn]
  dsimp only
  rw [settle, hvalues, harranged h app hn]
  exact hwf.share_eq_of_node hn

end Normal

end Graph

end ExprGraph
