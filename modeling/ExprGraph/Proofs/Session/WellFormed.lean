import Mathlib
import ExprGraph.Session.Basic
import ExprGraph.Proofs.Graph.WellFormed
import ExprGraph.Proofs.Derivative.Growth

/-!
# Well-formed sessions

Every graph of a session is well-formed, whatever requests led to the session and whether or not
they succeeded.
-/

namespace ExprGraph

/-- The supply of variable ids takes no part in what makes a graph well-formed. -/
theorem Graph.WellFormed.withNextVariable {g : Graph} (hg : g.WellFormed) (next : Nat) :
    { g with nextVariable := next }.WellFormed :=
  ⟨hg.arity, hg.live, hg.earlier, hg.literals, hg.operations⟩

namespace Session

theorem run_append (s : Session) (before after : List Request) :
    s.run (before ++ after) = (s.run before).run after :=
  List.foldl_append

theorem run_concat (s : Session) (requests : List Request) (request : Request) :
    s.run (requests ++ [request]) = ((s.run requests).step request).2 :=
  s.run_append requests [request]

/-- A call leaves the session with the graph and the memo it ends with. -/
theorem step_call {s : Session} {graph : Nat} {g : Graph} (hg : s.graph? graph = some g)
    (memo : Option Nat) (call : Call) :
    (s.step (.call graph memo call)).2 =
      s.store graph memo (endState call.run ⟨g, s.memoFor memo⟩) := by
  simp only [step, hg]
  cases hrun : call.run ⟨g, s.memoFor memo⟩ with
  | ok answer w =>
      rw [endState_of_ok hrun]
      exact s.store_lend graph memo w
  | error e w =>
      rw [endState_of_error hrun]
      exact s.store_lend graph memo w

theorem step_call_of_none {s : Session} {graph : Nat} (hg : s.graph? graph = none)
    (memo : Option Nat) (call : Call) : (s.step (.call graph memo call)).2 = s := by
  simp only [step, hg]

theorem graph?_eq_some_iff {s : Session} {graph : Nat} {g : Graph} :
    s.graph? graph = some g ↔
      ∃ own, s.graphs[graph]? = some own ∧ { own with nextVariable := s.nextVariable } = g := by
  rw [graph?, Option.map_eq_some_iff]

theorem graph?_store {s : Session} {graph : Nat} {g : Graph} (hg : s.graph? graph = some g)
    (memo : Option Nat) (w : Workspace) : (s.store graph memo w).graph? graph = some w.graph := by
  obtain ⟨own, hown, rfl⟩ := graph?_eq_some_iff.mp hg
  refine graph?_eq_some_iff.mpr ⟨w.graph, ?_, rfl⟩
  exact Array.getElem?_setIfInBounds_self_of_lt (Array.getElem?_eq_some_iff.mp hown).1

/-- The graph a call has worked on is the one it ends with. -/
theorem graph?_step_call {s : Session} {graph : Nat} {g : Graph} (hg : s.graph? graph = some g)
    (memo : Option Nat) (call : Call) :
    (s.step (.call graph memo call)).2.graph? graph =
      some (endState call.run ⟨g, s.memoFor memo⟩).graph := by
  rw [step_call hg]
  exact graph?_store hg memo _

/-- An operation on live nodes is built. -/
theorem step_operation {s : Session} {graph : Nat} {g : Graph} (hg : s.graph? graph = some g)
    (memo : Option Nat) {op : Op} {args : List Handle} (harity : args.length = op.arity)
    (hlive : ∀ a ∈ args, g.Live a) :
    s.step (.call graph memo (.operation op args)) =
      (.ok (.handle (g.build op args).1),
        s.store graph memo ⟨(g.build op args).2, s.memoFor memo⟩) := by
  have hrun : (Call.operation op args).run ⟨g, s.memoFor memo⟩ =
      .ok (.handle (g.build op args).1) ⟨(g.build op args).2, s.memoFor memo⟩ :=
    bind_of_ok (DiffM.onGraph_of_ok (BuildM.operation_eq harity hlive))
  simp only [step, hg, hrun, store_lend]

/-- An operation on live nodes leaves its graph as it has been built. -/
theorem graph?_step_operation {s : Session} {graph : Nat} {g g' : Graph}
    (hg : s.graph? graph = some g) (memo : Option Nat) {op : Op} {args : List Handle} {h : Handle}
    (harity : args.length = op.arity) (hlive : ∀ a ∈ args, g.Live a)
    (hbuild : g.build op args = (h, g')) :
    (s.step (.call graph memo (.operation op args))).2.graph? graph = some g' := by
  rw [step_operation hg memo harity hlive, hbuild]
  exact graph?_store hg memo _

theorem graph?_step_literal {s : Session} {graph : Nat} {g : Graph}
    (hg : s.graph? graph = some g) (memo : Option Nat) (v : Float) :
    (s.step (.call graph memo (.literal v))).2.graph? graph = some (g.literal v).2 := by
  have hrun : (Call.literal v).run ⟨g, s.memoFor memo⟩ =
      .ok (.handle (g.literal v).1) ⟨(g.literal v).2, s.memoFor memo⟩ :=
    bind_of_ok (DiffM.onGraph_of_ok rfl)
  rw [graph?_step_call hg, endState_of_ok hrun]

/-- Every graph of the session is well-formed. -/
def WellFormed (s : Session) : Prop :=
  ∀ (graph : Nat) (own : Graph), s.graphs[graph]? = some own → own.WellFormed

theorem WellFormed.graph {s : Session} (hs : s.WellFormed) {graph : Nat} {g : Graph}
    (hg : s.graph? graph = some g) : g.WellFormed := by
  obtain ⟨own, hown, rfl⟩ := graph?_eq_some_iff.mp hg
  exact (hs graph own hown).withNextVariable s.nextVariable

/-- Where a graph comes from that a session has after a request: it has just begun, or it was there
before, or it is the one that a call has worked on. -/
theorem graph_of_step {s : Session} {request : Request} {graph : Nat} {own : Graph}
    (hown : (s.step request).2.graphs[graph]? = some own) :
    (∃ id folds, own = Graph.empty id folds) ∨ (∃ before : Graph, own = before.clear) ∨
      s.graphs[graph]? = some own ∨
      ∃ memo call g, request = .call graph memo call ∧ s.graph? graph = some g ∧
        own = (endState call.run ⟨g, s.memoFor memo⟩).graph := by
  cases request with
  | newGraph folds =>
      change (s.graphs.push (Graph.empty s.nextGraph folds))[graph]? = some own at hown
      rw [Array.getElem?_push] at hown
      split at hown
      · exact .inl ⟨s.nextGraph, folds, (Option.some.inj hown).symm⟩
      · exact .inr (.inr (.inl hown))
  | clear cleared =>
      change (s.graphs.modify cleared Graph.clear)[graph]? = some own at hown
      rw [Array.getElem?_modify] at hown
      split at hown
      · obtain ⟨before, -, rfl⟩ := Option.map_eq_some_iff.mp hown
        exact .inr (.inl ⟨before, rfl⟩)
      · exact .inr (.inr (.inl hown))
  | newMemo => exact .inr (.inr (.inl hown))
  | resetMemo memo => exact .inr (.inr (.inl hown))
  | call index memo call =>
      cases hg : s.graph? index with
      | none =>
          rw [step_call_of_none hg] at hown
          exact .inr (.inr (.inl hown))
      | some g =>
          rw [step_call hg] at hown
          change (s.graphs.setIfInBounds index _)[graph]? = some own at hown
          rw [Array.getElem?_setIfInBounds] at hown
          split_ifs at hown with hself
          · subst hself
            exact .inr (.inr (.inr ⟨memo, call, g, rfl, hg, (Option.some.inj hown).symm⟩))
          · exact .inr (.inr (.inl hown))

theorem WellFormed.step {s : Session} (hs : s.WellFormed) (request : Request) :
    (s.step request).2.WellFormed := by
  intro graph own hown
  rcases graph_of_step hown with ⟨id, folds, rfl⟩ | ⟨before, rfl⟩ | hbefore |
    ⟨memo, call, g, -, hg, rfl⟩
  · exact Graph.wellFormed_empty id folds
  · exact Graph.wellFormed_clear before
  · exact hs graph own hbefore
  · exact (hs.graph hg).grows (call.run_keeps ⟨g, s.memoFor memo⟩)

theorem Reachable.induction {P : Session → Prop} (hstart : P start)
    (hstep : ∀ s request, P s → P (s.step request).2) {s : Session} (hs : s.Reachable) : P s := by
  obtain ⟨requests, rfl⟩ := hs
  induction requests using List.reverseRecOn with
  | nil => exact hstart
  | append_singleton requests request ih =>
      rw [run_concat]
      exact hstep _ request ih

theorem Reachable.wellFormed {s : Session} (hs : s.Reachable) : s.WellFormed :=
  hs.induction (fun _ _ hown => by cases hown) fun _ request hs => hs.step request

/-- A session with one graph that does not fold, and a variable in it. -/
def oneVariable : Session :=
  start.run [.newGraph false, .call 0 none (.declare "x")]

/-- The same session, after the variable has been squared. -/
def square : Session :=
  (oneVariable.step (.call 0 none (.operation .mul [⟨0, 0, 1⟩, ⟨0, 0, 1⟩]))).2

theorem reachable_square : square.Reachable :=
  Reachable.step ⟨_, rfl⟩ _

/-- The graph with a variable. -/
def oneVariableGraph : Graph :=
  { id := 1, folds := false, nodes := #[.var 1 "x"], nextVariable := 2 }

/-- The graph with a variable and its square. -/
def squareGraph : Graph :=
  { oneVariableGraph with
    nodes := #[.var 1 "x", .app ⟨.mul, [⟨0, 0, 1⟩, ⟨0, 0, 1⟩]⟩]
    operations := Std.HashMap.insert {} ⟨.mul, [⟨0, 0, 1⟩, ⟨0, 0, 1⟩]⟩ ⟨1, 0, 1⟩ }

theorem graph?_square : square.graph? 0 = some squareGraph := by
  have hbefore : oneVariable.graph? 0 = some oneVariableGraph := rfl
  have hlive : ∀ a ∈ ([⟨0, 0, 1⟩, ⟨0, 0, 1⟩] : List Handle), oneVariableGraph.Live a := by
    intro a ha
    obtain rfl : a = ⟨0, 0, 1⟩ := by simpa using ha
    exact ⟨.var 1 "x", rfl⟩
  have hbuild : oneVariableGraph.build .mul [⟨0, 0, 1⟩, ⟨0, 0, 1⟩] = (⟨1, 0, 1⟩, squareGraph) := by
    simp [oneVariableGraph, squareGraph, Graph.build, Graph.simplify, Graph.isZero, Graph.isOne,
      Graph.isNegOne, Graph.holds, Graph.node, Graph.placeOf, recycle, Node.isZero, Node.isOne,
      Node.isNegOne, Graph.settle, Graph.share, Op.arrange, Graph.push, Graph.handleAt]
  exact graph?_step_operation hbefore none rfl hlive hbuild

end Session

end ExprGraph
