import Mathlib
import ExprGraph.Proofs.Derivative.Sparse
import ExprGraph.Proofs.Session.Independence

/-!
# Sparse Jacobians in sessions

Whatever a session has been through, a sparse Jacobian represents the dense one: asked for
afterwards, with any memo, that one has the same nodes as entries, and nothing is built for it.
-/

namespace ExprGraph

open ExprGraph.Graph

namespace Session

variable {s : Session} {graph : Nat} {g : Graph}

/-- A call that succeeds answers with its result. -/
theorem step_call_of_run (hg : s.graph? graph = some g) {memo : Option Nat} {call : Call}
    {answer : Answer} {w : Workspace} (hrun : call.run ⟨g, s.memoFor memo⟩ = .ok answer w) :
    (s.step (.call graph memo call)).1 = .ok answer ∧
      (s.step (.call graph memo call)).2.graph? graph = some w.graph := by
  refine ⟨by simp only [step, hg, hrun], ?_⟩
  rw [graph?_step_call hg, endState_of_ok hrun]

/-- A sparse Jacobian represents the dense one that the graph has afterwards, and what it stores
tells of a variable below an output.  A memo that has been in use is asked to be in the range of
the counters. -/
theorem Reachable.sparseJacobian_represents (hs : s.Reachable) (hg : s.graph? graph = some g)
    {memo : Option Nat} (hmemo : memo = none ∨ s.ReachableInRange) {outputs vars : List Handle}
    (houtputs : ∀ out ∈ outputs, g.Live out) (hvars : ∀ var ∈ vars, g.IsVariable var) :
    let request := Request.call graph memo (.sparseJacobian outputs vars)
    let after := (s.step request).2
    ∃ m g' dense, (s.step request).1 = .ok (.sparse m) ∧ after.graph? graph = some g' ∧
      g.Extends g' ∧ m.rows = outputs.length ∧ m.cols = vars.length ∧ m.Represents dense g' ∧
      (∀ memo', memo' = none ∨ s.ReachableInRange →
        let again := Request.call graph memo' (.jacobian outputs vars none)
        (after.step again).1 = .ok (.matrix dense) ∧
          (after.step again).2.graph? graph = some g') ∧
      ∀ r c d, (r, c, d) ∈ m.entries →
        ∃ out var, outputs[r]? = some out ∧ vars[c]? = some var ∧ g.Reaches out var := by
  intro request after
  have hw : Workspace.Trusted ⟨g, s.memoFor memo⟩ := hs.trusted hg hmemo
  have hargs : g.Differentiable outputs vars [] := ⟨houtputs, hvars, nofun⟩
  obtain ⟨m, w, hrun, hremembers, rfl, hknown⟩ := DiffM.sparseJacobian_recalls hw hargs
  have hretains := hremembers hw
  have hcall : (Call.sparseJacobian outputs vars).run ⟨g, s.memoFor memo⟩ = .ok (.sparse _) w :=
    bind_of_ok hrun
  obtain ⟨hanswer, hafter⟩ := step_call_of_run hg hcall
  have hdense := DiffM.jacobian_of_knows none
    ⟨fun out hout => hretains.grown.live (houtputs out hout),
      fun var hvar => hretains.grown.isVariable (hvars var hvar), nofun⟩ hknown
  refine ⟨_, w.graph, _, hanswer, hafter, hretains.grown, rfl, rfl,
    SparseMatrix.represents_table w.graph outputs vars _, fun memo' hmemo' => ?_,
    fun r c d hentry => ?_⟩
  · have htrusted : Workspace.Trusted ⟨w.graph, _⟩ := (hs.step request).trusted hafter
      (hmemo'.imp_right fun hrange => hrange.step_call graph memo (.sparseJacobian outputs vars))
    have hcall' : (Call.jacobian outputs vars none).run w = .ok (.matrix _) w := bind_of_ok hdense
    obtain ⟨_, hother⟩ := Call.run_with_memo hretains.trusted hcall' htrusted
    exact (step_call_of_run hafter hother :)
  · obtain ⟨hget, hzero⟩ := SparseMatrix.mem_table.mp hentry
    obtain ⟨out, var, hout, hvar, rfl⟩ := Matrix.get?_table_eq_some_iff.mp hget
    have hlive := houtputs out (List.mem_of_getElem? hout)
    have hreach := (hknown out (List.mem_of_getElem? hout) var
      (List.mem_of_getElem? hvar)).reaches hretains.trusted hzero
    exact ⟨out, var, hout, hvar, (hw.ready.graph.reaches_iff hretains.grown hlive).mp hreach⟩

/-- Of a variable, the literal three and the variable again, by the variable twice: the derivatives
of the variable are stored and found, those of the literal are not, and there is no fourth row. -/
theorem sparseJacobian_represents_cube :
    let outputs : List Handle := [⟨0, 0, 1⟩, ⟨1, 0, 1⟩, ⟨0, 0, 1⟩]
    let vars : List Handle := [⟨0, 0, 1⟩, ⟨0, 0, 1⟩]
    cube.Reachable ∧ cube.graph? 0 = some cubeGraph ∧ (∀ out ∈ outputs, cubeGraph.Live out) ∧
    (∀ var ∈ vars, cubeGraph.IsVariable var) ∧
    ∃ m d, (cube.step (.call 0 none (.sparseJacobian outputs vars))).1 = .ok (.sparse m) ∧
      m.rows = 3 ∧ m.cols = 2 ∧ m.get? 2 1 = some d ∧ m.get? 1 0 = none ∧ m.get? 3 0 = none := by
  intro outputs vars
  have hx : cubeGraph.IsVariable ⟨0, 0, 1⟩ := ⟨1, "x", rfl⟩
  have houtputs : ∀ out ∈ outputs, cubeGraph.Live out := by
    simp only [outputs, List.forall_mem_cons]
    exact ⟨hx.live, ⟨_, node_three_cubeGraph⟩, hx.live, nofun⟩
  have hvars : ∀ var ∈ vars, cubeGraph.IsVariable var := by
    simpa [vars] using hx
  refine ⟨reachable_cube, graph?_cube, houtputs, hvars, ?_⟩
  obtain ⟨m, g', dense, hanswer, hafter, hext, hrows, hcols, hm, hdense, hreaches⟩ :=
    reachable_cube.sparseJacobian_represents graph?_cube (.inl rfl) houtputs hvars
  -- the dense Jacobian has the derivative of the variable by itself, which is the literal one
  have hw := (reachable_cube.step _).trusted hafter (.inl (Eq.refl none))
  have hargs : g'.Differentiable outputs vars [] :=
    ⟨fun out hout => hext.live (houtputs out hout),
      fun var hvar => hext.isVariable (hvars var hvar), nofun⟩
  obtain ⟨_, w, hrun, hremembers, rfl, hknown⟩ := DiffM.jacobian_recalls hw none hargs
  have hcall : (Call.jacobian outputs vars none).run _ = .ok (.matrix _) w := bind_of_ok hrun
  obtain ⟨hanswer', hafter'⟩ := step_call_of_run hafter hcall
  obtain ⟨hsame, hgraph⟩ := hdense none (.inl rfl)
  obtain rfl := Option.some.inj (hgraph.symm.trans hafter')
  obtain rfl := Answer.matrix.inj (Except.ok.inj (hsame.symm.trans hanswer'))
  have hone := (hknown ⟨0, 0, 1⟩ (by decide) ⟨0, 0, 1⟩ (by decide)).node_self
    (hremembers hw).trusted (hext.isVariable hx)
  refine ⟨m, _, hanswer, hrows, hcols, hm.get?_eq_some_iff.mpr (hm.mem_iff.mpr
    ⟨Matrix.get?_table_eq_some_iff.mpr ⟨_, _, rfl, rfl, rfl⟩, ?_, ?_⟩), ?_, ?_⟩
  · have hne : (1.0 : Float) ≠ 0.0 := by decide
    simpa [hone] using hne
  · have hne : (1.0 : Float) ≠ -0.0 := by decide
    simpa [hone] using hne
  · refine hm.get?_eq_none_iff.mpr fun d hentry => ?_
    obtain ⟨out, var, hout, hvar, hreach⟩ := hreaches 1 0 d hentry
    cases hout
    cases hvar
    exact not_reaches_three_cubeGraph hreach
  · refine hm.get?_eq_none_iff.mpr fun d hentry => ?_
    obtain ⟨out, var, hout, -⟩ := hreaches 3 0 d hentry
    cases hout

end Session

end ExprGraph
