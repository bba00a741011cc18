import Mathlib
import ExprGraph.Proofs.Derivative.Cost
import ExprGraph.Proofs.Derivative.Coverage
import ExprGraph.Proofs.Session.WellFormed

/-!
# The cost of differentiation in sessions

Whatever a session has been through, what a derivative or a product adds to a graph is linear in the
number of distinct nodes below what it is asked for, however often these are used there.
-/

namespace ExprGraph

open ExprGraph.Graph

namespace Session

variable {s : Session} {graph : Nat} {g : Graph} {memo : Option Nat}

/-- The memo after a call is the one that the call has left, or has nothing if the session keeps
none of that number. -/
theorem memoFor_step_call (hg : s.graph? graph = some g) (memo : Option Nat) (call : Call) :
    (s.step (.call graph memo call)).2.memoFor memo =
        (endState call.run ⟨g, s.memoFor memo⟩).memo ∨
      (s.step (.call graph memo call)).2.memoFor memo = Memo.empty := by
  rw [step_call hg]
  cases memo with
  | none => exact .inr rfl
  | some index =>
      change (s.memos.setIfInBounds index _)[index]?.getD _ = _ ∨
        (s.memos.setIfInBounds index _)[index]?.getD _ = _
      by_cases hindex : index < s.memos.size
      · rw [Array.getElem?_setIfInBounds_self_of_lt hindex]
        exact .inl rfl
      · rw [Array.getElem?_eq_none (by simpa using hindex)]
        exact .inr rfl

/-- What is added to a graph and a memo is bounded by the number of distinct nodes below what is
asked for, the length of the vector that a product is made with, and a zero. -/
structure AddsLinearly (s : Session) (graph : Nat) (memo : Option Nat) (g : Graph) : Prop where
  derivative (node var : Handle) :
    let after := (s.step (.call graph memo (.derivative node var))).2
    let nodes := (g.below [node]).ncard
    (∃ g', after.graph? graph = some g' ∧ g'.size ≤ g.size + 10 * nodes) ∧
      (after.memoFor memo).size ≤ (s.memoFor memo).size + nodes ∧
      ((s.memoFor memo).added (after.memoFor memo)).ncard ≤ nodes
  jacobianTimes (outputs vars : List Handle) :
    let after := (s.step (.call graph memo (.jacobianTimes outputs vars))).2
    let nodes := (g.below outputs).ncard
    ∃ g', after.graph? graph = some g' ∧
      g'.size ≤ g.size + (10 * nodes + 2 * vars.length + 1)
  /-- Here the bound does not mention the variables. -/
  transposeTimes (outputs vars : List Handle) :
    let after := (s.step (.call graph memo (.transposeTimes outputs vars))).2
    let nodes := (g.below outputs).ncard
    ∃ g', after.graph? graph = some g' ∧
      g'.size ≤ g.size + (10 * nodes + 2 * outputs.length + 1)

/-- The bounds hold in every state of the memo, which need not be one of this graph, and also of
calls that are refused. -/
theorem Reachable.addsLinearly (hs : s.Reachable) (hg : s.graph? graph = some g)
    (memo : Option Nat) : s.AddsLinearly graph memo g := by
  have hwf : g.WellFormed := hs.wellFormed.graph hg
  constructor
  case derivative =>
    intro node var after nodes
    have hmemo : after.memoFor memo = _ ∨ after.memoFor memo = Memo.empty :=
      memoFor_step_call hg memo (.derivative node var)
    rw [Call.run, DiffM.endState_map] at hmemo
    constructor
    · refine ⟨_, graph?_step_call hg memo _, ?_⟩
      rw [Call.run, DiffM.endState_map]
      exact (DiffM.derivative_costs hwf node var).covered
    · have hadds := DiffM.derivative_addsOnly (w := ⟨g, s.memoFor memo⟩) hwf node var
      have hkeys : (g.below [node] ×ˢ {var}).Finite :=
        (hwf.finite_below [node]).prod (Set.finite_singleton var)
      have hncard : (g.below [node] ×ˢ {var}).ncard = nodes := by
        rw [Set.ncard_prod, Set.ncard_singleton, Nat.mul_one]
      rcases hmemo with hkept | hnone
      · rw [← hncard, hkept]
        exact ⟨hadds.size_le hkeys, Set.ncard_le_ncard hadds.added_subset hkeys⟩
      · rw [hnone]
        simp [Memo.added, Memo.empty, Memo.size]
  case jacobianTimes =>
    intro outputs vars after nodes
    refine ⟨_, graph?_step_call hg memo _, ?_⟩
    rw [Call.run, DiffM.endState_map]
    exact (DiffM.jacobianTimes_costs hwf outputs vars).covered
  case transposeTimes =>
    intro outputs vars after nodes
    refine ⟨_, graph?_step_call hg memo _, ?_⟩
    rw [Call.run, DiffM.endState_map]
    exact (DiffM.transposeTimes_costs hwf outputs vars).covered

theorem below_squareGraph :
    squareGraph.below [⟨1, 0, 1⟩] = {⟨1, 0, 1⟩, ⟨0, 0, 1⟩} := by
  have hsquare : squareGraph.argsOf ⟨1, 0, 1⟩ = [⟨0, 0, 1⟩, ⟨0, 0, 1⟩] := rfl
  have hvar : squareGraph.argsOf ⟨0, 0, 1⟩ = [] := rfl
  ext h
  rw [Set.mem_insert_iff, Set.mem_singleton_iff]
  constructor
  · rintro ⟨root, hroot, hreach⟩
    obtain rfl := List.mem_singleton.mp hroot
    cases hreach with
    | refl => exact .inl rfl
    | step ha hreach =>
        obtain rfl : _ = (⟨0, 0, 1⟩ : Handle) := by simpa [hsquare] using ha
        cases hreach with
        | refl => exact .inr rfl
        | step ha _ => simp [hvar] at ha
  · rintro (rfl | rfl)
    · exact ⟨_, List.mem_cons_self, .refl _⟩
    · exact ⟨_, List.mem_cons_self, .step (hsquare ▸ List.mem_cons_self) (.refl _)⟩

/-- Two nodes lie below the square of a variable, although it is used twice there.  That it is asked
for a hundred times costs nothing. -/
theorem addsLinearly_square :
    square.Reachable ∧ square.graph? 0 = some squareGraph ∧
    (squareGraph.below [⟨1, 0, 1⟩]).ncard = 2 ∧
    ∃ g', (square.step (.call 0 none
      (.transposeTimes [⟨1, 0, 1⟩] (List.replicate 100 ⟨0, 0, 1⟩)))).2.graph? 0 = some g' ∧
      g'.size ≤ 25 := by
  have hnodes : (squareGraph.below [⟨1, 0, 1⟩]).ncard = 2 := by
    rw [below_squareGraph, Set.ncard_pair (by decide)]
  obtain ⟨g', hg', hsize⟩ := (reachable_square.addsLinearly graph?_square none).transposeTimes
    [⟨1, 0, 1⟩] (List.replicate 100 ⟨0, 0, 1⟩)
  rw [hnodes] at hsize
  exact ⟨reachable_square, graph?_square, hnodes, g', hg', hsize⟩

end Session

end ExprGraph
