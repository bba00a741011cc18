import Mathlib
import ExprGraph.Proofs.Graph.Canonical
import ExprGraph.Proofs.Session.WellFormed

/-!
# Canonical sessions

Every graph of a session is canonical, and the ids of variables tell the variables of all graphs
apart.  Graphs draw the ids from the supply of the session, which only moves on: the variables that
a call makes have ids that no graph has used.
-/

namespace ExprGraph

open ExprGraph.Graph

namespace Session

variable {s : Session}

theorem nextVariable_le_step (s : Session) (request : Request) :
    s.nextVariable ≤ (s.step request).2.nextVariable := by
  cases request with
  | newGraph folds => exact le_rfl
  | clear graph => exact le_rfl
  | newMemo => exact le_rfl
  | resetMemo memo => exact le_rfl
  | call graph memo call =>
      cases hg : s.graph? graph with
      | none => rw [step_call_of_none hg]
      | some g =>
          rw [step_call hg]
          have hgrows : g.Grows (endState call.run ⟨g, s.memoFor memo⟩).graph :=
            call.run_keeps ⟨g, s.memoFor memo⟩
          obtain ⟨own, -, rfl⟩ := graph?_eq_some_iff.mp hg
          exact hgrows.nextVariable_le

/-- Operands are in order in every graph, and no two variables of any graphs share an id. -/
structure Distinguishes (s : Session) : Prop where
  arranged {graph : Nat} {own : Graph} : s.graphs[graph]? = some own → own.Arranged
  below {graph : Nat} {own : Graph} {h : Handle} {id : Nat} {name : String} :
    s.graphs[graph]? = some own → own.node h = .ok (.var id name) → id < s.nextVariable
  distinct {graph graph' : Nat} {own own' : Graph} {h h' : Handle} {id : Nat}
    {name name' : String} : s.graphs[graph]? = some own → s.graphs[graph']? = some own' →
    own.node h = .ok (.var id name) → own'.node h' = .ok (.var id name') →
    graph = graph' ∧ h = h'

namespace Distinguishes

theorem arranged_graph (hs : s.Distinguishes) {graph : Nat} {g : Graph}
    (hg : s.graph? graph = some g) : g.Arranged := by
  obtain ⟨own, hown, rfl⟩ := graph?_eq_some_iff.mp hg
  intro h app hn
  exact hs.arranged hown h app hn

theorem numbered (hs : s.Distinguishes) {graph : Nat} {g : Graph}
    (hg : s.graph? graph = some g) : g.Numbered := by
  obtain ⟨own, hown, rfl⟩ := graph?_eq_some_iff.mp hg
  exact ⟨fun hn => hs.below hown hn, fun hn hn' => (hs.distinct hown hown hn hn').2⟩

/-- A variable after a request was there before, or it has been made by a call in its graph, with an
id from the supply. -/
theorem var_of_step {request : Request} {graph : Nat} {own : Graph}
    {h : Handle} {id : Nat} {name : String}
    (hown : (s.step request).2.graphs[graph]? = some own)
    (hn : own.node h = .ok (.var id name)) :
    (∃ before, s.graphs[graph]? = some before ∧ before.node h = .ok (.var id name)) ∨
      (s.nextVariable ≤ id ∧ ∃ memo call, request = .call graph memo call) := by
  rcases graph_of_step hown with ⟨_, _, rfl⟩ | ⟨_, rfl⟩ | hbefore | ⟨memo, call, g, rfl, hg, rfl⟩
  · exact absurd ⟨_, hn⟩ (not_live_of_nodes_eq rfl h)
  · exact absurd ⟨_, hn⟩ (not_live_of_nodes_eq rfl h)
  · exact .inl ⟨own, hbefore, hn⟩
  · have hgrows : g.Grows (endState call.run ⟨g, s.memoFor memo⟩).graph :=
      call.run_keeps ⟨g, s.memoFor memo⟩
    obtain ⟨before, hbefore, rfl⟩ := graph?_eq_some_iff.mp hg
    rcases hgrows.var_cases hn with hold | hnew
    · exact .inl ⟨before, hbefore, hold⟩
    · exact .inr ⟨hnew, memo, call, rfl⟩

theorem step (hs : s.Distinguishes) (request : Request) :
    (s.step request).2.Distinguishes where
  arranged {graph own} hown := by
    rcases graph_of_step hown with ⟨_, _, rfl⟩ | ⟨_, rfl⟩ | hbefore |
      ⟨memo, call, g, rfl, hg, rfl⟩
    · exact fun h _ hn => absurd ⟨_, hn⟩ (not_live_of_nodes_eq rfl h)
    · exact fun h _ hn => absurd ⟨_, hn⟩ (not_live_of_nodes_eq rfl h)
    · exact hs.arranged hbefore
    · exact (hs.arranged_graph hg).grows (call.run_keeps ⟨g, s.memoFor memo⟩)
  below {graph own h id name} hown hn := by
    rcases graph_of_step hown with ⟨_, _, rfl⟩ | ⟨_, rfl⟩ | hbefore |
      ⟨memo, call, g, rfl, hg, rfl⟩
    · exact absurd ⟨_, hn⟩ (not_live_of_nodes_eq rfl h)
    · exact absurd ⟨_, hn⟩ (not_live_of_nodes_eq rfl h)
    · exact (hs.below hbefore hn).trans_le (s.nextVariable_le_step request)
    · rw [step_call hg]
      exact ((hs.numbered hg).grows (call.run_keeps ⟨g, s.memoFor memo⟩)).below hn
  distinct {graph graph' own own' h h' id name name'} hown hown' hn hn' := by
    by_cases hself : graph = graph'
    · subst hself
      obtain rfl : own = own' := Option.some.inj (hown.symm.trans hown')
      refine ⟨rfl, ?_⟩
      rcases graph_of_step hown with ⟨_, _, rfl⟩ | ⟨_, rfl⟩ | hbefore |
        ⟨memo, call, g, rfl, hg, rfl⟩
      · exact absurd ⟨_, hn⟩ (not_live_of_nodes_eq rfl h)
      · exact absurd ⟨_, hn⟩ (not_live_of_nodes_eq rfl h)
      · exact (hs.distinct hbefore hbefore hn hn').2
      · exact ((hs.numbered hg).grows (call.run_keeps ⟨g, s.memoFor memo⟩)).distinct hn hn'
    · rcases var_of_step hown hn with ⟨before, hbefore, hold⟩ | ⟨hnew, memo, call, rfl⟩
      · rcases var_of_step hown' hn' with ⟨before', hbefore', hold'⟩ | ⟨hnew', -⟩
        · exact hs.distinct hbefore hbefore' hold hold'
        · exact absurd (hs.below hbefore hold) (not_lt.mpr hnew')
      · rcases var_of_step hown' hn' with ⟨before', hbefore', hold'⟩ | ⟨-, memo', call', hcall⟩
        · exact absurd (hs.below hbefore' hold') (not_lt.mpr hnew)
        · cases hcall
          exact absurd rfl hself

theorem start : Session.start.Distinguishes where
  arranged hown := by cases hown
  below hown := by cases hown
  distinct hown := by cases hown

end Distinguishes

theorem Reachable.distinguishes (hs : s.Reachable) : s.Distinguishes :=
  hs.induction .start fun _ request hs => hs.step request

/-- Every graph is canonical, and the ids of variables are different over all graphs. -/
structure Canonical (s : Session) : Prop where
  graph {graph : Nat} {g : Graph} : s.graph? graph = some g → g.Canonical
  distinct {graph graph' : Nat} {g g' : Graph} {h h' : Handle} {id : Nat} {name name' : String} :
    s.graph? graph = some g → s.graph? graph' = some g' → g.node h = .ok (.var id name) →
    g'.node h' = .ok (.var id name') → graph = graph' ∧ h = h'

/-- Whatever has been called in a session, and whether or not it has succeeded, its graphs are
canonical. -/
theorem Reachable.canonical (hs : s.Reachable) : s.Canonical where
  graph hg := (hs.wellFormed.graph hg).canonical_of_numbered (hs.distinguishes.arranged_graph hg)
    (hs.distinguishes.numbered hg)
  distinct hg hg' hn hn' := by
    obtain ⟨own, hown, rfl⟩ := graph?_eq_some_iff.mp hg
    obtain ⟨own', hown', rfl⟩ := graph?_eq_some_iff.mp hg'
    exact hs.distinguishes.distinct hown hown' hn hn'

/-- The square of a variable is one node only. -/
theorem canonical_square : square.Reachable ∧ square.graph? 0 = some squareGraph ∧
    squareGraph.tree? ⟨1, 0, 1⟩ = some (.binary .mul (.var 1) (.var 1)) ∧
    ∀ h, squareGraph.tree? h = some (.binary .mul (.var 1) (.var 1)) → h = ⟨1, 0, 1⟩ := by
  have hvar : squareGraph.node ⟨0, 0, 1⟩ = .ok (.var 1 "x") := rfl
  have hnode : squareGraph.node ⟨1, 0, 1⟩ = .ok (.app ⟨.mul, [⟨0, 0, 1⟩, ⟨0, 0, 1⟩]⟩) := rfl
  have htree : squareGraph.tree? ⟨1, 0, 1⟩ = some (.binary .mul (.var 1) (.var 1)) := by
    rw [tree?, value?_of_app hnode (by decide)]
    simp only [List.mapM_cons, List.mapM_nil, value?_of_var hvar]
    rfl
  refine ⟨reachable_square, graph?_square, htree, fun h hh => ?_⟩
  exact (reachable_square.canonical.graph graph?_square).shared hh htree (Tree.Alike.refl _)

end Session

end ExprGraph
