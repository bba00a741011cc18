import Mathlib
import ExprGraph.Proofs.Derivative.Answer

/-!
# Arguments of differentiation

Every call that differentiates checks its handles first.  If one of them is unusable the call is
refused with graph and memo as they were; otherwise it succeeds, whatever the memo holds already,
since each node on the way is valid and each table that is looked into has the entry.
-/

namespace ExprGraph

open Workspace

open ExprGraph.Graph

/-- What a call that differentiates is about: the nodes to be differentiated, the variables, and the
columns that are asked for by name. -/
inductive Call.Differentiates : Call → List Handle → List Handle → List Handle → Prop
  | derivative (node var : Handle) : Differentiates (.derivative node var) [node] [var] []
  | gradient (node : Handle) (vars : List Handle) :
      Differentiates (.gradient node vars) [node] vars []
  | jacobian (outputs vars : List Handle) (columns : Option (List Handle)) :
      Differentiates (.jacobian outputs vars columns) outputs vars (columns.getD [])
  | hessian (node : Handle) (vars : List Handle) :
      Differentiates (.hessian node vars) [node] vars []
  | sparseJacobian (outputs vars : List Handle) :
      Differentiates (.sparseJacobian outputs vars) outputs vars []
  | jacobianTimes (outputs vars : List Handle) :
      Differentiates (.jacobianTimes outputs vars) outputs vars []
  | transposeTimes (outputs vars : List Handle) :
      Differentiates (.transposeTimes outputs vars) outputs vars []
  | hessianTimes (node : Handle) (vars : List Handle) :
      Differentiates (.hessianTimes node vars) [node] vars []

/-- The nodes are live, the variables are variables, and the columns are among them. -/
structure Graph.Differentiable (g : Graph) (nodes vars columns : List Handle) : Prop where
  live : ∀ node ∈ nodes, g.Live node
  isVariable : ∀ var ∈ vars, g.IsVariable var
  listed : ∀ col ∈ columns, col ∈ vars

/-- The columns of a Jacobian are variables, whether or not they are asked for by name. -/
theorem Graph.Differentiable.isVariable_columns {g : Graph} {nodes vars : List Handle}
    {columns : Option (List Handle)} (hargs : g.Differentiable nodes vars (columns.getD [])) :
    ∀ col ∈ columns.getD vars, g.IsVariable col := by
  intro col hcol
  cases columns with
  | none => exact hargs.isVariable col hcol
  | some columns => exact hargs.isVariable col (hargs.listed col hcol)

namespace DiffM

variable {w : Workspace} {outputs vars : List Handle} {columns : Option (List Handle)}

/-- What begins with refused work is refused. -/
theorem refused_bind {α β : Type} {work : DiffM α} (hrefused : ∃ e, work w = .error (.refused e) w)
    (rest : α → DiffM β) : ∃ e, (work >>= rest) w = .error (.refused e) w := by
  obtain ⟨e, he⟩ := hrefused
  exact ⟨e, bind_of_error he⟩

theorem checkColumns_eq_ok_iff {columns : List Handle} {position : Nat} :
    checkColumns vars position columns = .ok () ↔ ∀ col ∈ columns, col ∈ vars := by
  induction columns generalizing position with
  | nil => simp [checkColumns]
  | cons col rest ih =>
      rw [checkColumns, List.forall_mem_cons]
      by_cases hcol : col ∈ vars
      · rw [if_pos (List.contains_iff_mem.mpr hcol), ih, and_iff_right hcol]
      · rw [if_neg (by simpa using hcol)]
        simp [hcol]

/-- Columns are resolved exactly when the arguments are usable, and nothing changes meanwhile. -/
theorem resolveColumns_eq (columns : Option (List Handle))
    (hargs : w.graph.Differentiable outputs vars (columns.getD [])) :
    resolveColumns outputs vars columns w = .ok (columns.getD vars) w := by
  obtain ⟨houtputs, hvars, hlisted⟩ := hargs
  unfold resolveColumns
  rw [bind_of_ok (inspect_eq (validate_eq_ok_iff.mpr houtputs)),
    bind_of_ok (inspect_eq (expectVariables_eq_ok_iff.mpr hvars))]
  cases columns with
  | none => rfl
  | some columns => exact bind_of_ok (inspect_eq (checkColumns_eq_ok_iff.mpr hlisted))

theorem resolveColumns_refused (columns : Option (List Handle))
    (hargs : ¬ w.graph.Differentiable outputs vars (columns.getD [])) :
    ∃ e, resolveColumns outputs vars columns w = .error (.refused e) w := by
  by_cases hboth : (∀ out ∈ outputs, w.graph.Live out) ∧ ∀ var ∈ vars, w.graph.IsVariable var
  · obtain ⟨houtputs, hvars⟩ := hboth
    unfold resolveColumns
    rw [bind_of_ok (inspect_eq (validate_eq_ok_iff.mpr houtputs)),
      bind_of_ok (inspect_eq (expectVariables_eq_ok_iff.mpr hvars))]
    cases columns with
    | none => exact absurd ⟨houtputs, hvars, by simp⟩ hargs
    | some columns =>
        cases hcheck : checkColumns vars 0 columns with
        | error e => exact ⟨e, bind_of_error (inspect_eq_error hcheck)⟩
        | ok _ => exact absurd ⟨houtputs, hvars, checkColumns_eq_ok_iff.mp hcheck⟩ hargs
  · obtain ⟨e, hrefused⟩ := checkArguments_refused hboth
    refine ⟨e, ?_⟩
    unfold resolveColumns
    rw [← bind_assoc]
    exact bind_of_error hrefused

/-- Arguments without columns are checked as a whole. -/
theorem checkArguments_refused_of (hargs : ¬ w.graph.Differentiable outputs vars []) :
    ∃ e, checkArguments outputs vars w = .error (.refused e) w :=
  checkArguments_refused fun ⟨houtputs, hvars⟩ => hargs ⟨houtputs, hvars, by simp⟩

theorem gradient_refused {node : Handle} (hargs : ¬ w.graph.Differentiable [node] vars []) :
    ∃ e, gradient node vars w = .error (.refused e) w :=
  refused_bind (refused_bind (resolveColumns_refused none hargs) _) _

/-- A Jacobian by any columns is built without failing. -/
theorem jacobian_completes (hw : w.Ready)
    (hargs : w.graph.Differentiable outputs vars (columns.getD [])) :
    Succeeds Advances (jacobian outputs vars columns) w fun _ _ => True := by
  apply Succeeds.bind_eq (resolveColumns_eq columns hargs)
  exact .bind (derivativeRows_succeeds hw hargs.live hargs.isVariable_columns)
    fun _ _ _ _ => .pure trivial

theorem sparseJacobian_completes (hw : w.Ready) (hargs : w.graph.Differentiable outputs vars []) :
    Succeeds Advances (sparseJacobian outputs vars) w fun _ _ => True := by
  obtain ⟨rows, w', hrows, hadv, -⟩ := derivativeRows_succeeds hw hargs.live hargs.isVariable
  apply Succeeds.bind_eq (resolveColumns_eq none hargs)
  exact .bind (P := fun _ _ => True) (.of_eq (sparseRows_of_rows hw hrows 0) hadv trivial)
    fun _ _ _ _ => .pure trivial

/-- A second round of differentiation starts from usable slopes. -/
theorem after_gradient {α : Type} {node : Handle} {work : List Handle → DiffM α} (hw : w.Ready)
    (hargs : w.graph.Differentiable [node] vars [])
    (hwork : ∀ (slopes : List Handle) (w' : Workspace), w'.Ready →
      w'.graph.Differentiable slopes vars [] → Succeeds Advances (work slopes) w' fun _ _ => True) :
    Succeeds Advances (gradient node vars >>= work) w fun _ _ => True := by
  refine .bind (gradient_succeeds hw (hargs.live node List.mem_cons_self) hargs.isVariable)
    fun slopes w' hadv hslopes => ?_
  have hprogress := hadv hw
  exact hwork slopes w' hprogress.ready ⟨live_of_denotes_list hslopes, fun var hvar =>
    hprogress.grows.extends.isVariable (hargs.isVariable var hvar), by simp⟩

end DiffM

namespace Call.Differentiates

variable {call : Call} {nodes vars columns : List Handle} {w : Workspace}

/-- With an unusable argument a call is refused before anything has changed. -/
theorem refused (hcall : call.Differentiates nodes vars columns)
    (hargs : ¬ w.graph.Differentiable nodes vars columns) :
    ∃ e, call.run w = .error (.refused e) w := by
  cases hcall with
  | derivative node var =>
      have hnot : ¬ (w.graph.Live node ∧ w.graph.IsVariable var) := fun ⟨hlive, hvar⟩ =>
        hargs ⟨by simpa using hlive, by simpa using hvar, by simp⟩
      exact DiffM.refused_bind (DiffM.derivative_refused hnot) _
  | gradient node vars => exact DiffM.refused_bind (DiffM.gradient_refused hargs) _
  | jacobian outputs vars columns =>
      exact DiffM.refused_bind (DiffM.refused_bind (DiffM.resolveColumns_refused columns hargs) _) _
  | hessian node vars =>
      exact DiffM.refused_bind (DiffM.refused_bind (DiffM.gradient_refused hargs) _) _
  | sparseJacobian outputs vars =>
      exact DiffM.refused_bind (DiffM.refused_bind (DiffM.resolveColumns_refused none hargs) _) _
  | jacobianTimes outputs vars =>
      exact DiffM.refused_bind (DiffM.refused_bind (DiffM.checkArguments_refused_of hargs) _) _
  | transposeTimes outputs vars =>
      exact DiffM.refused_bind (DiffM.refused_bind (DiffM.checkArguments_refused_of hargs) _) _
  | hessianTimes node vars =>
      exact DiffM.refused_bind (DiffM.refused_bind (DiffM.gradient_refused hargs) _) _

/-- With usable arguments a call succeeds. -/
theorem succeeds (hcall : call.Differentiates nodes vars columns) (hw : w.Ready)
    (hargs : w.graph.Differentiable nodes vars columns) :
    Succeeds Advances call.run w fun _ _ => True := by
  have hlive := hargs.live
  have hvars := hargs.isVariable
  cases hcall with
  | derivative node var =>
      exact .bind (DiffM.derivative_succeeds hw (hlive node List.mem_cons_self)
        (hvars var List.mem_cons_self)) fun _ _ _ _ => .pure trivial
  | gradient node vars =>
      exact .bind (DiffM.gradient_succeeds hw (hlive node List.mem_cons_self) hvars)
        fun _ _ _ _ => .pure trivial
  | jacobian outputs vars columns =>
      exact .bind (DiffM.jacobian_completes hw hargs) fun _ _ _ _ => .pure trivial
  | hessian node vars =>
      exact .bind (DiffM.after_gradient hw hargs fun _ _ hw' hargs' =>
        DiffM.jacobian_completes hw' hargs') fun _ _ _ _ => .pure trivial
  | sparseJacobian outputs vars =>
      exact .bind (DiffM.sparseJacobian_completes hw hargs) fun _ _ _ _ => .pure trivial
  | jacobianTimes outputs vars =>
      exact .bind (DiffM.jacobianTimes_succeeds hw hlive hvars) fun _ _ _ _ => .pure trivial
  | transposeTimes outputs vars =>
      exact .bind (DiffM.transposeTimes_succeeds hw hlive hvars) fun _ _ _ _ => .pure trivial
  | hessianTimes node vars =>
      exact .bind (DiffM.after_gradient hw hargs fun _ _ hw' hargs' =>
        (DiffM.jacobianTimes_succeeds hw' hargs'.live hargs'.isVariable).weaken
          fun _ _ _ _ => trivial) fun _ _ _ _ => .pure trivial

end Call.Differentiates

end ExprGraph
