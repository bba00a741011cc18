import Mathlib
import ExprGraph.Proofs.Derivative.Replay
import ExprGraph.Proofs.Graph.Size

/-!
# The nodes of local partials

The rules of differentiation give an operator a small stock of formulas: the partials by all its
operands, with their parts.  Every part is built at most once over a node, because building it again
finds it.  So the number of nodes together with the number of parts that are still missing does not
rise when partials are built, however often and in whatever order.
-/

namespace ExprGraph

open ExprGraph.Graph

/-- The parts of a formula that building it may make a node for. -/
def Formula.parts : Formula → List Formula
  | self => []
  | operand _ => []
  | literal v => [literal v]
  | unary op a => unary op a :: a.parts
  | binary op a b => binary op a b :: (a.parts ++ b.parts)
  | select c a b => select c a b :: (c.parts ++ a.parts ++ b.parts)
  | after first second => first.parts ++ second.parts

/-- The parts of the partials by all operands. -/
def Op.stock (op : Op) : List Formula :=
  ((List.range op.arity).flatMap fun index => (op.partialBy index).parts).dedup

theorem Op.parts_subset_stock (op : Op) {index : Nat} (hindex : index < op.arity) :
    (op.partialBy index).parts ⊆ op.stock := by
  intro f hf
  rw [stock, List.mem_dedup, List.mem_flatMap]
  exact ⟨index, List.mem_range.mpr hindex, hf⟩

/-- The parts, and a product and a sum for every operand. -/
theorem Op.stock_le (op : Op) : op.stock.length + 2 * op.arity ≤ 10 := by
  cases op <;> decide

theorem Op.arity_pos (op : Op) : 0 < op.arity := by
  cases op <;> decide

section Missing

variable {node : Handle} {app : Application} {g g' : Graph}

/-- The formula over the node of an application is there to be found. -/
def Application.Has (node : Handle) (app : Application) (g : Graph) (f : Formula) : Prop :=
  ∃ h, BuildM.Replays (f.build node app.args) h g

/-- The parts of local partials that are not there yet. -/
def Application.missing (node : Handle) (app : Application) (g : Graph) : Set Formula :=
  {f | f ∈ app.op.stock ∧ ¬ app.Has node g f}

/-- The number of nodes, with those counted in that local partials may still need. -/
noncomputable def Application.outlay (node : Handle) (app : Application) (g : Graph) : ℕ :=
  g.size + (app.missing node g).ncard

theorem Application.finite_missing : (app.missing node g).Finite :=
  (List.finite_toSet app.op.stock).subset fun _ hf => hf.1

theorem Application.size_le_outlay : g.size ≤ app.outlay node g :=
  Nat.le_add_right _ _

theorem Application.outlay_le (node : Handle) (app : Application) (g : Graph) :
    app.outlay node g ≤ g.size + app.op.stock.length := by
  have hsub : app.missing node g ⊆ (app.op.stock.toFinset : Set Formula) := fun f hf => by
    simpa using hf.1
  have hcard := Set.ncard_le_ncard hsub (Finset.finite_toSet _)
  rw [Set.ncard_coe_finset] at hcard
  exact Nat.add_le_add_left (hcard.trans (List.toFinset_card_le _)) _

/-- What has been built is found later on. -/
theorem Application.missing_extends (hext : g.Extends g') :
    app.missing node g' ⊆ app.missing node g :=
  fun _ hf => ⟨hf.1, fun ⟨h, hreplays⟩ => hf.2 ⟨h, hreplays.extends hext⟩⟩

/-- Only new nodes add to the outlay. -/
theorem Application.outlay_extends (node : Handle) (app : Application) (hext : g.Extends g') :
    app.outlay node g' + g.size ≤ app.outlay node g + g'.size := by
  have hfewer : (app.missing node g').ncard ≤ (app.missing node g).ncard :=
    Set.ncard_le_ncard (missing_extends hext) finite_missing
  simp only [outlay]
  omega

/-- Work other than on local partials costs what it adds. -/
theorem Application.outlay_costs {α : Type} {work : BuildM α} {credit : ℕ}
    (hwork : Costs Grows Graph.size credit work g) :
    Costs Grows (app.outlay node) credit work g where
  related := hwork.related
  covered := by
    have houtlay := app.outlay_extends node hwork.related.extends
    have hsize := hwork.covered
    omega
  remains {a g'} hrun := by
    have hgrows : g.Grows g' := endState_of_ok hrun ▸ hwork.related
    have houtlay := app.outlay_extends node hgrows.extends
    have hsize := hwork.remains hrun
    omega

/-- The step that makes the node of a part pays for it with the part: there is one part less
missing afterwards, or the part was there and nothing changes. -/
theorem Application.part_costs {f : Formula} {work : BuildM Handle} (hg : g.WellFormed)
    (hf : f ∈ app.op.stock)
    (hsame : ∀ g', g'.WellFormed → g.Extends g' → f.build node app.args g' = work g')
    (hwork : Costs Grows Graph.size 1 work g) (hsettles : BuildM.Settles work g fun _ _ => True)
    (hrefused : ∀ e g', work g = .error e g' → g' = g) :
    Costs Grows (app.outlay node) 0 work g := by
  by_cases hhas : app.Has node g f
  · obtain ⟨h, hreplays⟩ := hhas
    have hrun : work g = .ok h g := (hsame g hg (.refl g)).symm.trans (hreplays g hg (.refl g))
    exact .of_ok hrun (refl g) le_rfl
  · cases hrun : work g with
    | error e g' =>
        obtain rfl := hrefused e g' hrun
        exact .of_error hrun (refl _) le_rfl
    | ok h g' =>
        obtain ⟨hgrows, -, hreplays⟩ := hsettles h g' hrun
        have hnow : app.Has node g' f := ⟨h, fun g'' hg'' hext =>
          (hsame g'' hg'' (hgrows.extends.trans hext)).trans (hreplays g'' hg'' hext)⟩
        have hfewer : app.missing node g' ⊂ app.missing node g :=
          ⟨missing_extends hgrows.extends, fun hsub => (hsub ⟨hf, hhas⟩).2 hnow⟩
        have hcard := Set.ncard_lt_ncard hfewer finite_missing
        have hsize := hwork.remains hrun
        refine .of_ok hrun hgrows ?_
        simp only [outlay]
        omega

end Missing

namespace BuildM

variable {node : Handle} {app : Application} {g : Graph}

theorem operation_part_costs {f : Formula} {op : Op} {args : List Handle} (hg : g.WellFormed)
    (hf : f ∈ app.op.stock)
    (hsame : ∀ g', g'.WellFormed → g.Extends g' →
      f.build node app.args g' = operation op args g') :
    Costs Grows (app.outlay node) 0 (operation op args) g := by
  refine app.part_costs hg hf hsame (operation_costs op args)
    ((operation_settles hg op args).weaken fun _ _ _ h => ⟨trivial, h.2⟩) fun e g' hrun => ?_
  rcases operation_cases op args g with ⟨e', hrefused⟩ | ⟨-, -, hok⟩
  · cases hrefused.symm.trans hrun
    rfl
  · cases hok.symm.trans hrun

/-- A formula that has been built over a node is found when it is built again. -/
theorem formula_replays {f : Formula} {h : Handle} {g' : Graph} (hg : g.WellFormed)
    (hn : g.node node = .ok (.app app)) (hrun : f.build node app.args g = .ok h g') :
    Replays (f.build node app.args) h g' :=
  (formula_settles f hg ⟨_, hn⟩ (fun _ ha => hg.live hn ha) h g' hrun).2.2

/-- After a part has been built for nothing, what follows starts from a graph that has it. -/
theorem bind_formula_costs {f : Formula} {k : Handle → BuildM Handle} (hg : g.WellFormed)
    (hn : g.node node = .ok (.app app))
    (hf : Costs Grows (app.outlay node) 0 (f.build node app.args) g)
    (hk : ∀ h g', g.Extends g' → g'.WellFormed → g'.node node = .ok (.app app) →
      Replays (f.build node app.args) h g' → Costs Grows (app.outlay node) 0 (k h) g') :
    Costs Grows (app.outlay node) 0 (f.build node app.args >>= k) g :=
  .bind hf fun h g' hrun hgrows => hk h g' hgrows.extends (hg.grows hgrows)
    (hgrows.extends.node_eq hn) (formula_replays hg hn hrun)

/-- Building a formula of the stock is paid for by its parts. -/
theorem formula_costs (f : Formula) (hparts : f.parts ⊆ app.op.stock) (hg : g.WellFormed)
    (hn : g.node node = .ok (.app app)) :
    Costs Grows (app.outlay node) 0 (f.build node app.args) g := by
  induction f generalizing g with
  | self => exact .pure le_rfl
  | operand index =>
      rw [Formula.build]
      split
      · exact .pure le_rfl
      · exact .of_error rfl (refl g) le_rfl
  | literal v =>
      refine app.part_costs hg (hparts List.mem_cons_self) (fun _ _ _ => rfl) (literal_costs v)
        ((literal_settles hg v).weaken fun _ _ _ h => ⟨trivial, h.2⟩) fun e g' hrun => ?_
      cases hrun
  | unary op a iha =>
      obtain ⟨hself, ha⟩ := List.cons_subset.mp hparts
      refine bind_formula_costs hg hn (iha ha hg hn) fun h₁ g₁ _ hg₁ _ hreplays₁ => ?_
      exact operation_part_costs hg₁ hself fun g' hg' hext => bind_of_ok (hreplays₁ g' hg' hext)
  | binary op a b iha ihb =>
      obtain ⟨hself, hab⟩ := List.cons_subset.mp hparts
      obtain ⟨ha, hb⟩ := List.append_subset.mp hab
      refine bind_formula_costs hg hn (iha ha hg hn) fun h₁ g₁ _ hg₁ hn₁ hreplays₁ => ?_
      refine bind_formula_costs hg₁ hn₁ (ihb hb hg₁ hn₁) fun h₂ g₂ hext₂ hg₂ _ hreplays₂ => ?_
      exact operation_part_costs hg₂ hself fun g' hg' hext =>
        (bind_of_ok (hreplays₁ g' hg' (hext₂.trans hext))).trans
          (bind_of_ok (hreplays₂ g' hg' hext))
  | select c a b ihc iha ihb =>
      obtain ⟨hself, hcab⟩ := List.cons_subset.mp hparts
      obtain ⟨hca, hb⟩ := List.append_subset.mp hcab
      obtain ⟨hc, ha⟩ := List.append_subset.mp hca
      refine bind_formula_costs hg hn (ihc hc hg hn) fun h₁ g₁ _ hg₁ hn₁ hreplays₁ => ?_
      refine bind_formula_costs hg₁ hn₁ (iha ha hg₁ hn₁) fun h₂ g₂ hext₂ hg₂ hn₂ hreplays₂ => ?_
      refine bind_formula_costs hg₂ hn₂ (ihb hb hg₂ hn₂) fun h₃ g₃ hext₃ hg₃ _ hreplays₃ => ?_
      refine operation_part_costs hg₃ hself fun g' hg' hext => ?_
      have hlater := hext₃.trans hext
      exact (bind_of_ok (hreplays₁ g' hg' (hext₂.trans hlater))).trans
        ((bind_of_ok (hreplays₂ g' hg' hlater)).trans (bind_of_ok (hreplays₃ g' hg' hext)))
  | after first second ihfirst ihsecond =>
      obtain ⟨hfirst, hsecond⟩ := List.append_subset.mp hparts
      exact bind_formula_costs hg hn (ihfirst hfirst hg hn) fun _ _ _ hg₁ hn₁ _ =>
        ihsecond hsecond hg₁ hn₁

end BuildM

end ExprGraph
