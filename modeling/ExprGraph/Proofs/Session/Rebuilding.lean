import Mathlib
import ExprGraph.Proofs.Graph.Normal
import ExprGraph.Proofs.Session.Canonical
import ExprGraph.Proofs.Session.Handles
import ExprGraph.Proofs.Session.Refusal

/-!
# Building again

The graphs of a session are in normal form, so what they store is found when it is built again.  An
operation that has succeeded gives the same node as long as its graph is not cleared, and adds
nothing to the graph, whatever has been called meanwhile.
-/

namespace ExprGraph

open ExprGraph.Graph

namespace Session

variable {s : Session} {g : Graph} {op : Op} {args : List Handle} {h : Handle}

/-- Every graph of the session is in normal form. -/
def Normal (s : Session) : Prop :=
  ∀ (graph : Nat) (own : Graph), s.graphs[graph]? = some own → own.Normal

theorem Normal.graph (hs : s.Normal) {graph : Nat} (hg : s.graph? graph = some g) : g.Normal := by
  obtain ⟨own, hown, rfl⟩ := graph?_eq_some_iff.mp hg
  have hnormal := hs graph own hown
  -- the supply of variable ids takes no part in it
  exact ⟨hnormal.kept, hnormal.unfolded⟩

theorem Normal.step (hs : s.Normal) (hwf : s.WellFormed) (request : Request) :
    (s.step request).2.Normal := by
  intro graph own hown
  rcases graph_of_step hown with ⟨id, folds, rfl⟩ | ⟨before, rfl⟩ | hbefore |
    ⟨memo, call, g, -, hg, rfl⟩
  · exact normal_of_nodes_eq rfl
  · exact normal_of_nodes_eq rfl
  · exact hs graph own hbefore
  · exact (hs.graph hg).grows (hwf.graph hg) (call.run_keeps ⟨g, s.memoFor memo⟩)

theorem Reachable.normal (hs : s.Reachable) : s.Normal := by
  suffices hboth : s.WellFormed ∧ s.Normal from hboth.2
  refine hs.induction (P := fun s => s.WellFormed ∧ s.Normal) ⟨?_, ?_⟩
    fun s request hs => ⟨hs.1.step request, hs.2.step hs.1 request⟩
  · exact fun _ _ hown => by cases hown
  · exact fun _ _ hown => by cases hown

/-- The request has an answer and leaves all graphs and memos as they are. -/
structure Settled (s : Session) (request : Request) (answer : Answer) : Prop where
  answer : (s.step request).1 = .ok answer
  graphs : (s.step request).2.graph? = s.graph?
  memos : (s.step request).2.memos = s.memos

/-- An operation is settled when its node is found. -/
theorem settled_of_build_eq {graph : Nat} (hg : s.graph? graph = some g)
    (harity : args.length = op.arity) (hlive : ∀ a ∈ args, g.Live a)
    (hbuild : g.build op args = (h, g)) (memo : Option Nat) :
    s.Settled (.call graph memo (.operation op args)) (.handle h) := by
  have hstep := step_operation hg memo harity hlive
  rw [hbuild] at hstep
  refine ⟨?_, ?_, ?_⟩
  · rw [hstep]
  · rw [hstep]
    exact (store_same hg memo).1
  · rw [hstep]
    exact (store_same hg memo).2

/-- An operation that has succeeded had live operands, and its node has been built. -/
theorem built_of_step {graph : Nat} {memo : Option Nat}
    (hanswer : (s.step (.call graph memo (.operation op args))).1 = .ok (.handle h)) :
    ∃ g, s.graph? graph = some g ∧ args.length = op.arity ∧ (∀ a ∈ args, g.Live a) ∧
      (g.build op args).1 = h ∧
      (s.step (.call graph memo (.operation op args))).2.graph? graph =
        some (g.build op args).2 := by
  cases hg : s.graph? graph with
  | none =>
      simp only [step, hg] at hanswer
      cases hanswer
  | some g =>
      rcases BuildM.operation_cases op args g with ⟨e, hrefused⟩ | ⟨harity, hlive, hrun⟩
      · have hfailed : (Call.operation op args).run ⟨g, s.memoFor memo⟩ =
            .error (.refused e) ⟨g, s.memoFor memo⟩ :=
          bind_of_error (DiffM.onGraph_of_error hrefused)
        simp only [step, hg, hfailed] at hanswer
        cases hanswer
      · rw [step_operation hg memo harity hlive] at hanswer
        refine ⟨g, rfl, harity, hlive, Answer.handle.inj (Except.ok.inj hanswer), ?_⟩
        exact graph?_step_operation hg memo harity hlive rfl

/-- What building again does in a session. -/
structure Rebuilds (s : Session) : Prop where
  /-- A stored application is its own node. -/
  stored {graph : Nat} {g : Graph} {h : Handle} {app : Application} :
    s.graph? graph = some g → g.node h = .ok (.app app) → ∀ memo,
    s.Settled (.call graph memo (.operation app.op app.args)) (.handle h)
  /-- No identity applies to it. -/
  kept {graph : Nat} {g : Graph} {h : Handle} {app : Application} :
    s.graph? graph = some g → g.node h = .ok (.app app) →
    ∀ result, ¬ g.Identity app.op app.args result
  /-- In a graph that folds, some operand of it is no literal. -/
  unfolded {graph : Nat} {g : Graph} {h : Handle} {app : Application} :
    s.graph? graph = some g → g.node h = .ok (.app app) → g.folds = true →
    ∃ a ∈ app.args, ∀ v, g.node a ≠ .ok (.lit v)
  /-- An operation that has succeeded is settled until its graph is cleared. -/
  again {graph : Nat} {memo : Option Nat} {op : Op} {args : List Handle} {h : Handle}
    {requests : List Request} :
    (s.step (.call graph memo (.operation op args))).1 = .ok (.handle h) →
    .clear graph ∉ requests → ∀ memo',
    ((s.step (.call graph memo (.operation op args))).2.run requests).Settled
      (.call graph memo' (.operation op args)) (.handle h)

/-- Building is stable in every session. -/
theorem Reachable.rebuilds (hs : s.Reachable) : s.Rebuilds where
  stored hg hn memo := by
    have hwf := hs.wellFormed.graph hg
    have hbuild :=
      (hs.normal.graph hg).build_eq hwf (hs.distinguishes.arranged_graph hg) hn
    exact settled_of_build_eq hg (hwf.arity hn) (fun a ha => hwf.live hn ha) hbuild memo
  kept hg hn result hidentity := hidentity.simplify_ne_keep ((hs.normal.graph hg).kept hn)
  unfolded hg hn := (hs.normal.graph hg).unfolded hn
  again {graph memo op args h requests} hanswer hclear memo' := by
    obtain ⟨g, hg, harity, hlive, rfl, hbuilt⟩ := built_of_step hanswer
    obtain ⟨now, hnow, -, -, hkept⟩ := graph?_run hbuilt requests
    have hext := hkept hclear
    have hreachable : Reachable
        ((s.step (.call graph memo (.operation op args))).2.run requests) := by
      obtain ⟨before, rfl⟩ := hs
      exact ⟨before ++ .call graph memo (.operation op args) :: requests, by simp [run]⟩
    have hagain :=
      (hs.wellFormed.graph hg).build_again (hreachable.wellFormed.graph hnow) hlive hext
    have hlive' : ∀ a ∈ args, now.Live a :=
      fun a ha => ((build_extends g op args).trans hext).live (hlive a ha)
    exact settled_of_build_eq hnow harity hlive' hagain memo'

/-- The square of a variable is built once, also after it has been differentiated. -/
theorem rebuilds_square : square.Reachable ∧
    square.Settled (.call 0 none (.operation .mul [⟨0, 0, 1⟩, ⟨0, 0, 1⟩]))
      (.handle ⟨1, 0, 1⟩) ∧
    ((square.step (.call 0 none (.operation .mul [⟨0, 0, 1⟩, ⟨0, 0, 1⟩]))).2.run
      [.call 0 none (.derivative ⟨1, 0, 1⟩ ⟨0, 0, 1⟩)]).Settled
      (.call 0 none (.operation .mul [⟨0, 0, 1⟩, ⟨0, 0, 1⟩])) (.handle ⟨1, 0, 1⟩) := by
  have hnode : squareGraph.node ⟨1, 0, 1⟩ = .ok (.app ⟨.mul, [⟨0, 0, 1⟩, ⟨0, 0, 1⟩]⟩) := rfl
  have hstored := reachable_square.rebuilds.stored graph?_square hnode none
  exact ⟨reachable_square, hstored,
    reachable_square.rebuilds.again hstored.answer (by decide) none⟩

end Session

end ExprGraph
