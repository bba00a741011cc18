import Mathlib
import ExprGraph.Proofs.Derivative.Growth
import ExprGraph.Proofs.Derivative.Product

/-!
# Progress of calls

A call with wrong arguments is refused before it has changed anything, and every other call works as
it should.  So a workspace that is ready stays ready, whatever is called on it.
-/

namespace ExprGraph

open Workspace

open ExprGraph.Graph

namespace DiffM

variable {w : Workspace}

theorem checkArguments_refused {outputs vars : List Handle}
    (hargs : ¬((∀ out ∈ outputs, w.graph.Live out) ∧ ∀ var ∈ vars, w.graph.IsVariable var)) :
    ∃ e, checkArguments outputs vars w = .error (.refused e) w := by
  unfold checkArguments
  cases hvalid : w.graph.validate outputs with
  | error e => exact ⟨e, bind_of_error (inspect_eq_error hvalid)⟩
  | ok _ =>
      rw [bind_of_ok (inspect_eq hvalid)]
      cases hvars : w.graph.expectVariables vars with
      | error e => exact ⟨e, inspect_eq_error hvars⟩
      | ok _ =>
          exact absurd ⟨validate_eq_ok_iff.mp hvalid, expectVariables_eq_ok_iff.mp hvars⟩ hargs

/-- A derivative of a node that is not live, or by one that is no variable, is refused. -/
theorem derivative_refused {node var : Handle}
    (hargs : ¬(w.graph.Live node ∧ w.graph.IsVariable var)) :
    ∃ e, derivative node var w = .error (.refused e) w := by
  have hwrong : ¬((∀ out ∈ [node, var], w.graph.Live out) ∧
      ∀ x ∈ [var], w.graph.IsVariable x) := by
    intro ⟨hlive, hvar⟩
    exact hargs ⟨hlive node List.mem_cons_self, hvar var List.mem_cons_self⟩
  obtain ⟨e, hrefused⟩ := checkArguments_refused hwrong
  refine ⟨e, ?_⟩
  unfold derivative
  rw [← bind_assoc]
  exact bind_of_error hrefused

theorem derivative_advances (node var : Handle) : Keeps Advances (derivative node var) := by
  intro w hw
  by_cases hargs : w.graph.Live node ∧ w.graph.IsVariable var
  · exact (derivative_succeeds hw hargs.1 hargs.2).endState_related hw
  · obtain ⟨e, hrefused⟩ := derivative_refused hargs
    rw [endState_of_error hrefused]
    exact hw.progress_refl

/-- Work behind a check of its arguments makes progress when it does so for arguments that pass. -/
theorem checked_advances {α : Type} {outputs vars : List Handle} {rest : Unit → DiffM α}
    (hrest : ∀ w : Workspace, (∀ out ∈ outputs, w.graph.Live out) →
      (∀ var ∈ vars, w.graph.IsVariable var) → w.Ready →
      Advances w (endState (checkArguments outputs vars >>= rest) w)) :
    Keeps Advances (checkArguments outputs vars >>= rest) := by
  intro w hw
  by_cases hargs : (∀ out ∈ outputs, w.graph.Live out) ∧ ∀ var ∈ vars, w.graph.IsVariable var
  · exact hrest w hargs.1 hargs.2 hw hw
  · obtain ⟨e, hrefused⟩ := checkArguments_refused hargs
    rw [endState_of_error (bind_of_error hrefused)]
    exact hw.progress_refl

theorem jacobianTimes_advances (outputs vars : List Handle) :
    Keeps Advances (jacobianTimes outputs vars) :=
  checked_advances fun _ houtputs hvars hw =>
    (jacobianTimes_succeeds hw houtputs hvars).endState_related

theorem transposeTimes_advances (outputs vars : List Handle) :
    Keeps Advances (transposeTimes outputs vars) :=
  checked_advances fun _ houtputs hvars hw =>
    (transposeTimes_succeeds hw houtputs hvars).endState_related

end DiffM

/-- A call makes progress from wherever the workspace is ready, also when it fails. -/
theorem Call.run_advances (call : Call) : Keeps Advances call.run := by
  have hparts : KeptByParts Advances := {
    onGraph := fun {_ work} hwork w hw => by
      rw [DiffM.endState_onGraph]
      exact hw.progress_grows (hwork w.graph) rfl
    derivative := DiffM.derivative_advances
    jacobianTimes := DiffM.jacobianTimes_advances
    transposeTimes := DiffM.transposeTimes_advances }
  exact hparts.run call

end ExprGraph
