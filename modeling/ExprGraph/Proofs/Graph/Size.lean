import Mathlib
import ExprGraph.Proofs.Cost
import ExprGraph.Proofs.Graph.Growth

/-!
# The number of nodes

A call of a constructor makes at most one node, also where an identity leads to a negation that is
built in its place.
-/

namespace ExprGraph

namespace Graph

theorem size_literal_le (g : Graph) (v : Float) : (g.literal v).2.size ≤ g.size + 1 := by
  unfold literal
  split
  · exact Nat.le_succ _
  · simp [push, size]

theorem size_share_le (g : Graph) (app : Application) : (g.share app).2.size ≤ g.size + 1 := by
  unfold share
  split
  · exact Nat.le_succ _
  · simp [push, size]

theorem size_settle_le (g : Graph) (op : Op) (args : List Handle) :
    (g.settle op args).2.size ≤ g.size + 1 := by
  unfold settle
  split
  · exact size_literal_le g _
  · exact size_share_le g _

theorem size_negate_le (g : Graph) (a : Handle) : (g.negate a).2.size ≤ g.size + 1 := by
  unfold negate
  split
  · exact Nat.le_succ _
  · exact size_settle_le g .neg [a]

theorem size_build_le (g : Graph) (op : Op) (args : List Handle) :
    (g.build op args).2.size ≤ g.size + 1 := by
  unfold build
  split
  · exact Nat.le_succ _
  · exact size_literal_le g _
  · exact size_negate_le g _
  · exact size_settle_le g op args

theorem size_declareFrom (g : Graph) (stem : String) (first count : Nat) :
    (g.declareFrom stem first count).2.size = g.size + count := by
  induction count generalizing g first with
  | zero => rfl
  | succ count ih =>
      have hdeclare : (g.declare (stem ++ toString first)).2.size = g.size + 1 := by
        simp [declare, push, size]
      have hrest := ih (g.declare (stem ++ toString first)).2 (first + 1)
      rw [hdeclare, Nat.add_right_comm] at hrest
      exact hrest

end Graph

namespace BuildM

open ExprGraph.Graph

variable {g : Graph}

theorem literal_costs (v : Float) : Costs Grows Graph.size 1 (literal v) g :=
  .of_ok rfl (Step.literal v).grows (size_literal_le g v)

theorem operation_costs (op : Op) (args : List Handle) :
    Costs Grows Graph.size 1 (operation op args) g := by
  rcases operation_cases op args g with ⟨e, hrefused⟩ | ⟨harity, hlive, hrun⟩
  · exact .of_error hrefused (refl g) (Nat.le_succ _)
  · exact .of_ok hrun (build_grows harity hlive) (size_build_le g op args)

theorem declareMany_costs (stem : String) (count : Nat) :
    Costs Grows Graph.size count (extend fun g => g.declareMany stem count) g :=
  .of_ok rfl (declareFrom_grows g stem 1 count) (size_declareFrom g stem 1 count).le

/-- A sum has one addition less than terms, and is a literal when there are none. -/
theorem sum_costs (terms : List Handle) :
    Costs Grows Graph.size (max 1 terms.length) (sum terms) g := by
  cases terms with
  | nil => exact literal_costs 0.0
  | cons first rest =>
      refine .bind_of_keeps_eq (inspect_keeps _) fun _ _ => ?_
      refine (Affords.foldlM_const
        (fun term _ total _ _ => operation_costs .add [total, term]) first).trade ?_ fun _ => ?_ <;>
        rw [List.length_cons] <;> omega

end BuildM

end ExprGraph
