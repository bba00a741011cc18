import Mathlib
import ExprGraph.Proofs.Derivative.Arguments
import ExprGraph.Proofs.Session.Range

/-!
# Differentiation succeeds as a whole or not at all

In a session a call that differentiates either has an answer, or is refused and leaves every graph
and every memo as it was.  Which of the two it is depends on its handles alone.
-/

namespace ExprGraph

namespace Session

variable {s : Session} {graph : Nat} {g : Graph}

/-- Putting back what a call was given leaves all graphs and memos as they are. -/
theorem store_same (hg : s.graph? graph = some g) (memo : Option Nat) :
    (s.store graph memo ⟨g, s.memoFor memo⟩).graph? = s.graph? ∧
      (s.store graph memo ⟨g, s.memoFor memo⟩).memos = s.memos := by
  obtain ⟨own, hown, rfl⟩ := graph?_eq_some_iff.mp hg
  constructor
  · funext index
    simp only [Session.graph?, store, Array.getElem?_setIfInBounds]
    split_ifs with hself hbound
    · rw [← hself, hown]
      rfl
    · rw [← hself, Array.getElem?_eq_none (not_lt.mp hbound)]
    · rfl
  · cases memo with
    | none => rfl
    | some index =>
        apply Array.ext_getElem?
        intro other
        simp only [store, Array.getElem?_setIfInBounds]
        split_ifs with hself hbound
        · subst hself
          simp [memoFor, hbound]
        · rw [← hself, Array.getElem?_eq_none (not_lt.mp hbound)]
        · rfl

/-- The contract of differentiation.  With an unusable handle among its arguments a call is refused,
and all graphs and memos are as before; otherwise it has an answer.  A memo that has been in use is
asked to be in the range of the counters, beyond which it may pass for a memo of the graph. -/
theorem Reachable.differentiates_or_refuses (hs : s.Reachable) (hg : s.graph? graph = some g)
    (memo : Option Nat) {call : Call} {nodes vars columns : List Handle}
    (hcall : call.Differentiates nodes vars columns) :
    (¬ g.Differentiable nodes vars columns →
      (∃ e, call.run ⟨g, s.memoFor memo⟩ = .error (.refused e) ⟨g, s.memoFor memo⟩) ∧
      (s.step (.call graph memo call)).2.graph? = s.graph? ∧
      (s.step (.call graph memo call)).2.memos = s.memos) ∧
    (g.Differentiable nodes vars columns → memo = none ∨ s.ReachableInRange →
      ∃ answer w, call.run ⟨g, s.memoFor memo⟩ = .ok answer w) := by
  constructor
  · intro hargs
    obtain ⟨e, hrefused⟩ := hcall.refused (w := ⟨g, s.memoFor memo⟩) hargs
    refine ⟨⟨e, hrefused⟩, ?_⟩
    rw [step_call hg, endState_of_error hrefused]
    exact store_same hg memo
  · intro hargs hmemo
    obtain ⟨answer, w, hrun, -⟩ := hcall.succeeds (hs.ready hg hmemo) hargs
    exact ⟨answer, w, hrun⟩

/-- A square is differentiated by its variable, and not by itself. -/
theorem differentiates_or_refuses_square :
    square.Reachable ∧ square.graph? 0 = some squareGraph ∧ square.ReachableInRange ∧
    (Call.hessian ⟨1, 0, 1⟩ [⟨0, 0, 1⟩]).Differentiates [⟨1, 0, 1⟩] [⟨0, 0, 1⟩] [] ∧
    (∃ answer w, (Call.hessian ⟨1, 0, 1⟩ [⟨0, 0, 1⟩]).run ⟨squareGraph, square.memoFor (some 0)⟩ =
      .ok answer w) ∧
    (Call.hessianTimes ⟨1, 0, 1⟩ [⟨1, 0, 1⟩]).Differentiates [⟨1, 0, 1⟩] [⟨1, 0, 1⟩] [] ∧
    ∃ e, (Call.hessianTimes ⟨1, 0, 1⟩ [⟨1, 0, 1⟩]).run ⟨squareGraph, square.memoFor (some 0)⟩ =
      .error (.refused e) ⟨squareGraph, square.memoFor (some 0)⟩ := by
  have hvar : squareGraph.node ⟨0, 0, 1⟩ = .ok (.var 1 "x") := rfl
  have hnode : squareGraph.node ⟨1, 0, 1⟩ = .ok (.app ⟨.mul, [⟨0, 0, 1⟩, ⟨0, 0, 1⟩]⟩) := rfl
  have hgood : squareGraph.Differentiable [⟨1, 0, 1⟩] [⟨0, 0, 1⟩] [] :=
    ⟨by simpa using ⟨_, hnode⟩, by simpa using ⟨_, _, hvar⟩, by simp⟩
  have hbad : ¬ squareGraph.Differentiable [⟨1, 0, 1⟩] [⟨1, 0, 1⟩] [] := by
    intro hargs
    obtain ⟨id, name, hother⟩ := hargs.isVariable ⟨1, 0, 1⟩ List.mem_cons_self
    cases hother
  refine ⟨reachable_square, graph?_square, inRange_square, .hessian _ _, ?_, .hessianTimes _ _, ?_⟩
  · exact (reachable_square.differentiates_or_refuses graph?_square (some 0)
      (.hessian _ _)).2 hgood (.inr inRange_square)
  · exact ((reachable_square.differentiates_or_refuses graph?_square (some 0)
      (.hessianTimes _ _)).1 hbad).1

end Session

end ExprGraph
