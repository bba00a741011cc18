import Mathlib
import ExprGraph.Derivative.Jacobian
import ExprGraph.Proofs.Derivative.Forward
import ExprGraph.Proofs.Matrix

/-!
# Jacobians are correct

On a ready workspace gradients, Jacobians and Hessians of live nodes by variables are built without
failing, and every entry has the value of the derivative it stands for.  The entry of a Hessian is
the tangent of a tangent: it does not depend on the nodes that the gradient is made of.
-/

namespace ExprGraph

open Workspace

open ExprGraph.Graph

namespace Graph

/-- The second derivative of a node by two variables, the first one first. -/
def curvatureOf (g : Graph) (node var var' : Handle) (r : Reading) : r.R :=
  TrivSqZeroExt.snd (R := r.R) (M := r.R)
    (g.derivativeOf node var (r.jet (r.direction var')))

/-- Whatever node has the values of a derivative, its derivatives are the second derivatives. -/
theorem Denotes.derivativeOf {g g' : Graph} {node var slope : Handle}
    (hslope : g'.Denotes slope (g.derivativeOf node var)) (hfolds : g'.folds = false)
    (var' : Handle) (r : Reading) :
    g'.derivativeOf slope var' r = g.curvatureOf node var var' r :=
  congrArg (TrivSqZeroExt.snd (R := r.R) (M := r.R))
    (hslope.2 hfolds (r.jet (r.direction var')))

/-- The matrix has the shape of two lists, and every entry has the value that belongs to its row and
column. -/
structure DenotesMatrix (g : Graph) (m : Matrix Handle) (outputs columns : List Handle)
    (F : Handle → Handle → ∀ r : Reading, r.R) : Prop where
  rows : m.rows = outputs.length
  cols : m.cols = columns.length
  entry {i j : Nat} {out col : Handle} : outputs[i]? = some out → columns[j]? = some col →
    ∃ d, m.get? i j = some d ∧ g.Denotes d (F out col)

end Graph

namespace DiffM

variable {w : Workspace}

/-- The derivatives of some nodes by some variables, in rows. -/
theorem derivativeRows_succeeds {outputs columns : List Handle} (hw : w.Ready)
    (houtputs : ∀ out ∈ outputs, w.graph.Live out)
    (hcolumns : ∀ col ∈ columns, w.graph.IsVariable col) :
    Succeeds Advances (derivativeRows outputs columns) w fun rows w' =>
      List.Forall₂ (fun out row => List.Forall₂ w'.graph.Denotes row
        (columns.map (w.graph.derivativeOf out))) outputs rows := by
  have hstable : ∀ out row w₁ w₂, Advances w₁ w₂ → (w₁.Ready ∧ List.Forall₂ w₁.graph.Denotes row
      (columns.map (w.graph.derivativeOf out))) → w₂.Ready ∧ List.Forall₂ w₂.graph.Denotes row
      (columns.map (w.graph.derivativeOf out)) :=
    fun out row w₁ w₂ hadv hrow =>
      ⟨(hadv hrow.1).ready, denotes_list_grows hrow.2 hrow.1.graph (hadv hrow.1).grows⟩
  refine (Succeeds.mapM hstable outputs w fun out hout w' hadv => ?_).weaken
    fun rows w' _ hrows => hrows.imp fun _ _ hrow => hrow.2
  have hprogress := hadv hw
  refine (mapM_succeeds (F := w.graph.derivativeOf out) hprogress.ready
    fun col hcol w'' hprogress' => ?_).weaken fun row w'' hadv' hrow =>
      ⟨(hadv' hprogress.ready).ready, hrow⟩
  have hboth := hprogress.trans hprogress'
  rw [← hw.graph.derivativeOf_grows hboth.grows (houtputs out hout)]
  exact derivative_succeeds hboth.ready (hboth.grows.extends.live (houtputs out hout))
    (hboth.grows.extends.isVariable (hcolumns col hcol))

/-- A Jacobian by all of its variables. -/
theorem jacobian_succeeds {outputs vars : List Handle} (hw : w.Ready)
    (houtputs : ∀ out ∈ outputs, w.graph.Live out) (hvars : ∀ var ∈ vars, w.graph.IsVariable var) :
    Succeeds Advances (jacobian outputs vars none) w fun m w' =>
      ∃ rows, m = ⟨outputs.length, vars.length, rows.flatten.toArray⟩ ∧
        List.Forall₂ (fun out row => List.Forall₂ w'.graph.Denotes row
          (vars.map (w.graph.derivativeOf out))) outputs rows := by
  have hcolumns : resolveColumns outputs vars none w = .ok vars w := by
    unfold resolveColumns
    rw [bind_of_ok (inspect_eq (validate_eq_ok_iff.mpr houtputs)),
      bind_of_ok (inspect_eq (expectVariables_eq_ok_iff.mpr hvars))]
    rfl
  apply Succeeds.bind_eq hcolumns
  exact .bind (derivativeRows_succeeds hw houtputs hvars) fun rows w' _ hrows =>
    .pure ⟨rows, rfl, hrows⟩

/-- The entries of a matrix that is made of rows. -/
theorem denotesMatrix_of_rows {g : Graph} {outputs columns : List Handle}
    {F : Handle → Handle → ∀ r : Reading, r.R} {rows : List (List Handle)}
    (hrows : List.Forall₂ (fun out row => List.Forall₂ g.Denotes row (columns.map (F out)))
      outputs rows) :
    g.DenotesMatrix ⟨outputs.length, columns.length, rows.flatten.toArray⟩ outputs columns F := by
  refine ⟨rfl, rfl, fun {i j out col} hout hcol => ?_⟩
  obtain ⟨hi, rfl⟩ := List.getElem?_eq_some_iff.mp hout
  obtain ⟨hj, rfl⟩ := List.getElem?_eq_some_iff.mp hcol
  have hi' : i < rows.length := hrows.length_eq ▸ hi
  have hrow := hrows.get hi hi'
  have hlength : ∀ row ∈ rows, row.length = columns.length := by
    intro row hmem
    obtain ⟨k, hk, rfl⟩ := List.mem_iff_getElem.mp hmem
    have hother := hrows.get (hrows.length_eq ▸ hk) hk
    rw [show rows[k].length = _ from hother.length_eq, List.length_map]
  have hj' : j < rows[i].length := hlength _ (List.getElem_mem hi') ▸ hj
  have hentry := hrow.get hj' (by rwa [List.length_map])
  refine ⟨rows[i][j], ?_, by simpa using hentry⟩
  rw [Matrix.get?, if_pos ⟨hi, hj⟩, List.getElem?_toArray]
  exact getElem?_flatten hlength (List.getElem?_eq_getElem hi') (List.getElem?_eq_getElem hj')

/-- The derivatives of a node by some variables. -/
theorem gradient_succeeds {node : Handle} {vars : List Handle} (hw : w.Ready)
    (hlive : w.graph.Live node) (hvars : ∀ var ∈ vars, w.graph.IsVariable var) :
    Succeeds Advances (gradient node vars) w fun slopes w' =>
      List.Forall₂ w'.graph.Denotes slopes (vars.map (w.graph.derivativeOf node)) := by
  apply Succeeds.bind (jacobian_succeeds hw (by simpa using hlive) hvars)
  rintro _ w' - ⟨rows, rfl, hrows⟩
  obtain ⟨row, rest, hrow, hrest, rfl⟩ := List.forall₂_cons_left_iff.mp hrows
  cases hrest
  apply Succeeds.pure
  simpa [Matrix.toList] using hrow

/-- The second derivatives of a node, whatever its gradient is made of. -/
theorem hessian_succeeds {node : Handle} {vars : List Handle} (hw : w.Ready)
    (hfolds : w.graph.folds = false) (hlive : w.graph.Live node)
    (hvars : ∀ var ∈ vars, w.graph.IsVariable var) :
    Succeeds Advances (hessian node vars) w fun m w' =>
      w'.graph.DenotesMatrix m vars vars (w.graph.curvatureOf node) := by
  apply Succeeds.bind (gradient_succeeds hw hlive hvars)
  intro slopes w' hadv hslopes
  have hprogress := hadv hw
  have hfolds' : w'.graph.folds = false := hprogress.grows.extends.folds.trans hfolds
  refine (jacobian_succeeds hprogress.ready (live_of_denotes_list hslopes) fun var hvar =>
    hprogress.grows.extends.isVariable (hvars var hvar)).weaken ?_
  rintro _ w'' - ⟨rows, rfl, hrows⟩
  have hlength : slopes.length = vars.length := by
    rw [hslopes.length_eq, List.length_map]
  rw [hlength]
  refine denotesMatrix_of_rows (List.forall₂_iff_get.mpr ⟨?_, fun i hi hi' => ?_⟩)
  · rw [← hlength, hrows.length_eq]
  · have hrow := hrows.get (hlength ▸ hi) hi'
    have hslope := hslopes.get (hlength ▸ hi) (by rwa [List.length_map])
    refine List.forall₂_iff_get.mpr ⟨?_, fun j hj hj' => ?_⟩
    · rw [hrow.length_eq, List.length_map, List.length_map]
    · have hentry := hrow.get hj (by simpa using hj')
      simp only [List.get_eq_getElem, List.getElem_map] at hentry hslope ⊢
      exact hentry.congr fun hfolds r => hslope.derivativeOf hfolds' _ r

end DiffM

end ExprGraph
