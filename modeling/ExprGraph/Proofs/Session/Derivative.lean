import Mathlib
import ExprGraph.Proofs.Interpretation.Dual
import ExprGraph.Proofs.Session.Range

/-!
# Derivatives in sessions

Over a field, a derivative built in a session has the value of the tangent by the textbook rules.
The memo is a fresh one, or has been through anything while the counters are in range; the graph
must not fold, since the arithmetic of literals is not that of the field.
-/

namespace ExprGraph

namespace Graph

variable {g : Graph}

/-- Evaluation over dual numbers gives the tangent of a node. -/
theorem WellFormed.value?_dual (hg : g.WellFormed) {K : Type} [Field K] {interp : Interpretation K}
    (hinterp : interp.Exact) (hhalf : interp.literal 0.5 = 1 / 2)
    (hthird : interp.literal (1.0 / 3.0) = 1 / 3) (assign : Handle → K) {node : Handle}
    (hlive : g.Live node) (var : Handle) :
    ∃ z, g.value? interp.dual (fun x => some ⟨assign x, if x = var then 1 else 0⟩) node = some z ∧
      z.tangent = g.derivativeOf node var ⟨K, interp, hinterp.lawful, assign⟩ := by
  have hassign : (fun x => some (⟨assign x, if x = var then 1 else 0⟩ : Dual K)) = fun x =>
      some (Interpretation.toDual (Reading.moving ⟨K, interp, hinterp.lawful, assign⟩
        (Reading.direction ⟨K, interp, hinterp.lawful, assign⟩ var) x)) := by
    funext x
    simp only [Interpretation.toDual, Reading.moving, Reading.direction, Pi.single_apply,
      TrivSqZeroExt.fst_add, TrivSqZeroExt.snd_add, TrivSqZeroExt.fst_inl, TrivSqZeroExt.snd_inl,
      TrivSqZeroExt.fst_inr, TrivSqZeroExt.snd_inr, add_zero, zero_add]
  refine ⟨Interpretation.toDual (g.eval interp.jet (Reading.moving ⟨K, interp, hinterp.lawful,
    assign⟩ (Reading.direction ⟨K, interp, hinterp.lawful, assign⟩ var)) node), ?_, rfl⟩
  rw [hassign, hg.value?_morphism (hinterp.toDual_morphism hhalf hthird) _ node,
    hg.value?_eq_eval interp.jet _ hlive, Option.map_some]

end Graph

namespace Session

/-- A derivative has the value of the tangent that its node gets when the variable moves at unit
speed and all others stand still. -/
theorem Reachable.derivative_eq_tangent {s : Session} (hs : s.Reachable) {graph : Nat} {g : Graph}
    (hg : s.graph? graph = some g) (hfolds : g.folds = false) {memo : Option Nat}
    (hmemo : memo = none ∨ s.ReachableInRange) {node var : Handle} (hlive : g.Live node)
    (hvar : g.IsVariable var)
    {K : Type} [Field K] {interp : Interpretation K} (hinterp : interp.Exact)
    (hhalf : interp.literal 0.5 = 1 / 2) (hthird : interp.literal (1.0 / 3.0) = 1 / 3)
    (assign : Handle → K) :
    ∃ d w z, DiffM.derivative node var ⟨g, s.memoFor memo⟩ = .ok d w ∧
      g.value? interp.dual (fun x => some ⟨assign x, if x = var then 1 else 0⟩) node = some z ∧
      w.graph.value? interp (fun x => some (assign x)) d = some z.tangent := by
  have hw := hs.ready hg hmemo
  obtain ⟨d, w, hrun, hadv, hd⟩ := DiffM.derivative_succeeds hw hlive hvar
  have hprogress := hadv hw
  have hfolds' : w.graph.folds = false := hprogress.grows.extends.folds.trans hfolds
  obtain ⟨z, hz, htangent⟩ := hw.graph.value?_dual hinterp hhalf hthird assign hlive var
  refine ⟨d, w, z, hrun, hz, ?_⟩
  rw [htangent]
  exact hd.value?_eq hprogress.ready.graph hfolds' ⟨K, interp, hinterp.lawful, assign⟩

/-- The derivative of the square of a variable at three. -/
theorem derivative_eq_tangent_square :
    square.Reachable ∧ square.graph? 0 = some squareGraph ∧ squareGraph.folds = false ∧
    square.ReachableInRange ∧
    squareGraph.Live ⟨1, 0, 1⟩ ∧ squareGraph.IsVariable ⟨0, 0, 1⟩ ∧
    Interpretation.rational.Exact ∧ Interpretation.rational.literal 0.5 = 1 / 2 ∧
    Interpretation.rational.literal (1.0 / 3.0) = 1 / 3 ∧
    ∃ d w, DiffM.derivative ⟨1, 0, 1⟩ ⟨0, 0, 1⟩ ⟨squareGraph, square.memoFor none⟩ = .ok d w ∧
      w.graph.value? Interpretation.rational (fun _ => some 3) d = some 6 := by
  have hvar : squareGraph.node ⟨0, 0, 1⟩ = .ok (.var 1 "x") := rfl
  have hnode : squareGraph.node ⟨1, 0, 1⟩ = .ok (.app ⟨.mul, [⟨0, 0, 1⟩, ⟨0, 0, 1⟩]⟩) := rfl
  refine ⟨reachable_square, graph?_square, rfl, inRange_square, ⟨_, hnode⟩, ⟨_, _, hvar⟩,
    Interpretation.rational_exact, Interpretation.rational_half, Interpretation.rational_third, ?_⟩
  have hmemo : (none : Option Nat) = none ∨ square.ReachableInRange := .inr inRange_square
  obtain ⟨d, w, z, hrun, hz, hd⟩ := reachable_square.derivative_eq_tangent graph?_square rfl hmemo
    ⟨_, hnode⟩ ⟨_, _, hvar⟩ Interpretation.rational_exact Interpretation.rational_half
    Interpretation.rational_third fun _ => 3
  have hdual : squareGraph.value? Interpretation.rational.dual
      (fun x => some ⟨3, if x = ⟨0, 0, 1⟩ then 1 else 0⟩) ⟨1, 0, 1⟩ = some ⟨9, 6⟩ := by
    rw [Graph.value?_of_app hnode (by decide)]
    simp only [List.mapM_cons, List.mapM_nil, Graph.value?_of_var hvar]
    change some (Interpretation.rational.dual.binary .mul ⟨3, 1⟩ ⟨3, 1⟩) = some ⟨9, 6⟩
    have hvalue : Interpretation.rational.binary .mul 3 3 = 9 := by
      rw [Interpretation.rational_exact.mul]
      norm_num
    have htangent : (1 : ℚ) * 3 + 3 * 1 = 6 := by norm_num
    exact congrArg some (congrArg₂ Dual.mk hvalue htangent)
  obtain rfl : z = ⟨9, 6⟩ := Option.some.inj (hz.symm.trans hdual)
  exact ⟨d, w, hrun, hd⟩

end Session

end ExprGraph
