import Mathlib
import ExprGraph.Proofs.Derivative.Progress
import ExprGraph.Proofs.Session.WellFormed

/-!
# Sessions within the range of their counters

Graphs are told apart by a 32-bit identity, and the nodes of one graph before and after a clear by
a 32-bit epoch.  As long as neither counter has run over, a memo that passes for one of the current
graph and epoch is one, and its entries are right, whatever the session has been through.
-/

namespace ExprGraph

open ExprGraph.Graph

/-- Whether the request makes a graph. -/
def Request.makesGraph : Request → Bool
  | .newGraph _ => true
  | _ => false

namespace Session

/-- Fewer graphs are made than there are identities, and none is cleared as often as there are
epochs.  Beyond this two generations may coincide, and a memo of the one passes for one of the
other. -/
structure InRange (requests : List Request) : Prop where
  graphs : requests.countP Request.makesGraph < 2 ^ 32
  epochs (graph : Nat) : requests.count (.clear graph) < 2 ^ 32

theorem InRange.of_append {before after : List Request} (hrange : InRange (before ++ after)) :
    InRange before where
  graphs := (List.sublist_append_left before after).countP_le.trans_lt hrange.graphs
  epochs graph := ((List.sublist_append_left before after).count_le _).trans_lt
    (hrange.epochs graph)

/-- The sessions that requests lead to before a counter runs over. -/
def ReachableInRange (s : Session) : Prop :=
  ∃ requests, InRange requests ∧ s = start.run requests

variable {s : Session} {epochs : Nat → Nat}

/-- A memo comes from a graph of the session and some epoch of it, and is sound if that epoch is
still the current one.  Here `epochs` counts how often every graph has been cleared. -/
def Explains (s : Session) (epochs : Nat → Nat) (memo : Memo) : Prop :=
  ∀ generation, memo.generation = some generation →
    ∃ graph own epoch, s.graphs[graph]? = some own ∧ epoch ≤ epochs graph ∧
      generation = (UInt32.ofNat (graph + 1), UInt32.ofNat epoch) ∧
      (epoch = epochs graph → memo.SoundIn own)

/-- The counters of a session follow the number of its graphs and of their clears, and every memo
has an origin. -/
structure Tracked (s : Session) (epochs : Nat → Nat) : Prop where
  wellFormed : s.WellFormed
  nextGraph : s.nextGraph = UInt32.ofNat (s.graphs.size + 1)
  generation {graph : Nat} {own : Graph} : s.graphs[graph]? = some own →
    own.generation = (UInt32.ofNat (graph + 1), UInt32.ofNat (epochs graph))
  fresh {graph : Nat} : s.graphs.size ≤ graph → epochs graph = 0
  memo {index : Nat} {memo : Memo} : s.memos[index]? = some memo → s.Explains epochs memo

theorem explains_empty : s.Explains epochs Memo.empty := by
  intro generation hgeneration
  cases hgeneration

theorem ofNat_inj_of_lt {a b : Nat} (ha : a < 2 ^ 32) (hb : b < 2 ^ 32)
    (hsame : UInt32.ofNat a = UInt32.ofNat b) : a = b := by
  have hnat := congrArg UInt32.toNat hsame
  rwa [UInt32.toNat_ofNat_of_lt' ha, UInt32.toNat_ofNat_of_lt' hb] at hnat

namespace Tracked

theorem memoFor (hs : s.Tracked epochs) (memo : Option Nat) :
    s.Explains epochs (s.memoFor memo) := by
  cases memo with
  | none => exact explains_empty
  | some index =>
      change s.Explains epochs (s.memos[index]?.getD Memo.empty)
      cases hfound : s.memos[index]? with
      | none => exact explains_empty
      | some memo => exact hs.memo hfound

theorem generation_of_graph (hs : s.Tracked epochs) {graph : Nat} {g : Graph}
    (hg : s.graph? graph = some g) : graph < s.graphs.size ∧
      g.generation = (UInt32.ofNat (graph + 1), UInt32.ofNat (epochs graph)) := by
  obtain ⟨own, hown, rfl⟩ := graph?_eq_some_iff.mp hg
  have hgeneration := hs.generation hown
  exact ⟨(Array.getElem?_eq_some_iff.mp hown).1, hgeneration⟩

/-- A memo belongs to a generation that there has been. -/
theorem generation_of_memo (hs : s.Tracked epochs) {index : Nat} {memo : Memo}
    (hmemo : s.memos[index]? = some memo) {generation : UInt32 × UInt32}
    (hgeneration : memo.generation = some generation) :
    ∃ graph epoch, graph < s.graphs.size ∧ epoch ≤ epochs graph ∧
      generation = (UInt32.ofNat (graph + 1), UInt32.ofNat epoch) := by
  obtain ⟨graph, own, epoch, hown, hle, hsame, -⟩ := hs.memo hmemo generation hgeneration
  exact ⟨graph, epoch, (Array.getElem?_eq_some_iff.mp hown).1, hle, hsame⟩

/-- Before a counter has run over, a memo that passes for one of the current generation is sound. -/
theorem ready (hs : s.Tracked epochs) (hgraphs : s.graphs.size < 2 ^ 32)
    (hepochs : ∀ graph, epochs graph < 2 ^ 32) {graph : Nat} {g : Graph}
    (hg : s.graph? graph = some g) (memo : Option Nat) :
    Workspace.Ready ⟨g, s.memoFor memo⟩ := by
  have hwellFormed := hs.wellFormed.graph hg
  constructor
  · exact hwellFormed
  intro hcurrent
  obtain ⟨own, hown, rfl⟩ := graph?_eq_some_iff.mp hg
  obtain ⟨origin, own', epoch, horigin, hle, hgeneration, hsound⟩ := hs.memoFor memo _ hcurrent
  have hsame : (UInt32.ofNat (graph + 1), UInt32.ofNat (epochs graph)) =
      (UInt32.ofNat (origin + 1), UInt32.ofNat epoch) := (hs.generation hown).symm.trans hgeneration
  obtain ⟨hid, hepoch⟩ := Prod.mk.inj hsame
  have hgraph : graph < s.graphs.size := (Array.getElem?_eq_some_iff.mp hown).1
  have horigin' : origin < s.graphs.size := (Array.getElem?_eq_some_iff.mp horigin).1
  obtain rfl : graph = origin :=
    Nat.succ_injective (ofNat_inj_of_lt (by omega) (by omega) hid)
  obtain rfl : own = own' := Option.some.inj (hown.symm.trans horigin)
  have hnow : epoch = epochs graph :=
    (ofNat_inj_of_lt (hepochs graph) (lt_of_le_of_lt hle (hepochs graph)) hepoch).symm
  exact (hsound hnow).of_extends (hs.wellFormed graph own hown) hwellFormed
    ⟨rfl, rfl, rfl, rfl, id⟩

theorem newGraph (hs : s.Tracked epochs) (folds : Bool) :
    (s.step (.newGraph folds)).2.Tracked epochs where
  wellFormed := hs.wellFormed.step _
  nextGraph := by
    change s.nextGraph + 1 = UInt32.ofNat ((s.graphs.push _).size + 1)
    rw [hs.nextGraph, Array.size_push, UInt32.ofNat_add (s.graphs.size + 1) 1]
    rfl
  generation {graph own} hown := by
    change (s.graphs.push (Graph.empty s.nextGraph folds))[graph]? = some own at hown
    rw [Array.getElem?_push] at hown
    split at hown
    · next hlast =>
      cases hown
      rw [hlast, hs.fresh le_rfl, ← hs.nextGraph]
      rfl
    · exact hs.generation hown
  fresh {graph} hgraph := by
    change (s.graphs.push _).size ≤ graph at hgraph
    rw [Array.size_push] at hgraph
    exact hs.fresh (by omega)
  memo hmemo generation hgeneration := by
    obtain ⟨graph, own, epoch, hown, hrest⟩ := hs.memo hmemo generation hgeneration
    refine ⟨graph, own, epoch, ?_, hrest⟩
    change (s.graphs.push _)[graph]? = some own
    have hgraph := (Array.getElem?_eq_some_iff.mp hown).1
    rw [Array.getElem?_push, if_neg (by omega)]
    exact hown

/-- A memo that is sound before a clear is of an earlier epoch afterwards. -/
theorem clear (hs : s.Tracked epochs) {graph : Nat} (hgraph : graph < s.graphs.size) :
    (s.step (.clear graph)).2.Tracked (Function.update epochs graph (epochs graph + 1)) where
  wellFormed := hs.wellFormed.step _
  nextGraph := by
    change s.nextGraph = UInt32.ofNat ((s.graphs.modify graph Graph.clear).size + 1)
    rw [Array.size_modify]
    exact hs.nextGraph
  generation {index own} hown := by
    change (s.graphs.modify graph Graph.clear)[index]? = some own at hown
    rw [Array.getElem?_modify] at hown
    by_cases hself : graph = index
    · subst hself
      rw [if_pos rfl] at hown
      obtain ⟨before, hbefore, rfl⟩ := Option.map_eq_some_iff.mp hown
      have hgeneration := hs.generation hbefore
      obtain ⟨hid, hepoch⟩ := Prod.mk.inj hgeneration
      rw [Function.update_self, UInt32.ofNat_add (epochs graph) 1, ← hepoch, ← hid]
      rfl
    · rw [if_neg hself] at hown
      rw [Function.update_of_ne (Ne.symm hself)]
      exact hs.generation hown
  fresh {index} hindex := by
    change (s.graphs.modify graph Graph.clear).size ≤ index at hindex
    rw [Array.size_modify] at hindex
    rw [Function.update_of_ne (by omega)]
    exact hs.fresh hindex
  memo hmemo generation hgeneration := by
    obtain ⟨origin, own, epoch, hown, hle, hsame, hsound⟩ := hs.memo hmemo generation hgeneration
    by_cases hself : graph = origin
    · subst hself
      refine ⟨graph, own.clear, epoch, ?_, ?_, hsame, fun hnow => ?_⟩
      · change (s.graphs.modify graph Graph.clear)[graph]? = some own.clear
        rw [Array.getElem?_modify, if_pos rfl, hown]
        rfl
      · rw [Function.update_self]
        omega
      · rw [Function.update_self] at hnow
        omega
    · refine ⟨origin, own, epoch, ?_, ?_, hsame, fun hnow => hsound ?_⟩
      · change (s.graphs.modify graph Graph.clear)[origin]? = some own
        rw [Array.getElem?_modify, if_neg hself]
        exact hown
      · rw [Function.update_of_ne (Ne.symm hself)]
        exact hle
      · rw [hnow, Function.update_of_ne (Ne.symm hself)]

theorem newMemo (hs : s.Tracked epochs) : (s.step .newMemo).2.Tracked epochs where
  wellFormed := hs.wellFormed
  nextGraph := hs.nextGraph
  generation := hs.generation
  fresh := hs.fresh
  memo {index memo} hmemo := by
    change (s.memos.push Memo.empty)[index]? = some memo at hmemo
    rw [Array.getElem?_push] at hmemo
    split at hmemo
    · cases hmemo
      exact explains_empty
    · exact hs.memo hmemo

theorem resetMemo (hs : s.Tracked epochs) (index : Nat) :
    (s.step (.resetMemo index)).2.Tracked epochs where
  wellFormed := hs.wellFormed
  nextGraph := hs.nextGraph
  generation := hs.generation
  fresh := hs.fresh
  memo {index' memo} hmemo := by
    change (s.memos.modify index fun _ => Memo.empty)[index']? = some memo at hmemo
    rw [Array.getElem?_modify] at hmemo
    split at hmemo
    · obtain ⟨before, -, rfl⟩ := Option.map_eq_some_iff.mp hmemo
      exact explains_empty
    · exact hs.memo hmemo

section Store

variable {graph : Nat} {g : Graph} {memo : Option Nat} {w : Workspace}

/-- The origin of a memo stays its origin when the graph grows. -/
theorem explains_store (hs : s.Tracked epochs) (hg : s.graph? graph = some g)
    (hprogress : Workspace.Progress ⟨g, s.memoFor memo⟩ w) {other : Memo}
    (hother : s.Explains epochs other) : (s.store graph memo w).Explains epochs other := by
  intro generation hgeneration
  obtain ⟨origin, own, epoch, hown, hle, hsame, hsound⟩ := hother generation hgeneration
  by_cases hself : graph = origin
  · subst hself
    obtain ⟨own', hown', rfl⟩ := graph?_eq_some_iff.mp hg
    obtain rfl : own = own' := Option.some.inj (hown.symm.trans hown')
    refine ⟨graph, w.graph, epoch, ?_, hle, hsame, fun hnow => ?_⟩
    · change (s.graphs.setIfInBounds graph w.graph)[graph]? = some w.graph
      exact Array.getElem?_setIfInBounds_self_of_lt (Array.getElem?_eq_some_iff.mp hown).1
    · have hsupply : own.Extends { own with nextVariable := s.nextVariable } :=
        ⟨rfl, rfl, rfl, rfl, id⟩
      exact (hsound hnow).of_extends (hs.wellFormed graph own hown') hprogress.ready.graph
        (hsupply.trans hprogress.grows.extends)
  · refine ⟨origin, own, epoch, ?_, hle, hsame, hsound⟩
    change (s.graphs.setIfInBounds graph w.graph)[origin]? = some own
    rw [Array.getElem?_setIfInBounds_ne hself]
    exact hown

theorem generation_store (hs : s.Tracked epochs) (hg : s.graph? graph = some g)
    (hprogress : Workspace.Progress ⟨g, s.memoFor memo⟩ w) :
    w.graph.generation = (UInt32.ofNat (graph + 1), UInt32.ofNat (epochs graph)) := by
  obtain ⟨own, hown, rfl⟩ := graph?_eq_some_iff.mp hg
  have hgeneration : w.graph.generation = own.generation :=
    hprogress.grows.extends.generation_eq
  rw [hgeneration]
  exact hs.generation hown

theorem store (hs : s.Tracked epochs) (hg : s.graph? graph = some g)
    (hprogress : Workspace.Progress ⟨g, s.memoFor memo⟩ w) :
    (s.store graph memo w).Tracked epochs where
  wellFormed index own hown := by
    change (s.graphs.setIfInBounds graph w.graph)[index]? = some own at hown
    rw [Array.getElem?_setIfInBounds] at hown
    split_ifs at hown
    · cases hown
      exact hprogress.ready.graph
    · exact hs.wellFormed index own hown
  nextGraph := by
    change s.nextGraph = UInt32.ofNat ((s.graphs.setIfInBounds graph w.graph).size + 1)
    rw [Array.size_setIfInBounds]
    exact hs.nextGraph
  generation {index own} hown := by
    change (s.graphs.setIfInBounds graph w.graph)[index]? = some own at hown
    rw [Array.getElem?_setIfInBounds] at hown
    split_ifs at hown with hself
    · cases hown
      subst hself
      exact hs.generation_store hg hprogress
    · exact hs.generation hown
  fresh {index} hindex := by
    change (s.graphs.setIfInBounds graph w.graph).size ≤ index at hindex
    rw [Array.size_setIfInBounds] at hindex
    exact hs.fresh hindex
  memo {index other} hother := by
    cases memo with
    | none => exact hs.explains_store hg hprogress (hs.memo hother)
    | some own =>
        change (s.memos.setIfInBounds own w.memo)[index]? = some other at hother
        rw [Array.getElem?_setIfInBounds] at hother
        split_ifs at hother
        · cases hother
          rcases hprogress.memo with hsame | hcurrent
          · rw [hsame]
            exact hs.explains_store hg hprogress (hs.memoFor (some own))
          · intro generation hgeneration
            have hnow : generation = w.graph.generation :=
              Option.some.inj (hgeneration.symm.trans hcurrent)
            obtain ⟨before, hbefore, -⟩ := graph?_eq_some_iff.mp hg
            refine ⟨graph, w.graph, epochs graph, ?_, le_rfl, ?_, fun _ =>
              hprogress.ready.memo hcurrent⟩
            · change (s.graphs.setIfInBounds graph w.graph)[graph]? = some w.graph
              exact Array.getElem?_setIfInBounds_self_of_lt
                (Array.getElem?_eq_some_iff.mp hbefore).1
            · exact hnow.trans (hs.generation_store hg hprogress)
        · exact hs.explains_store hg hprogress (hs.memo hother)

end Store

theorem start : Session.start.Tracked fun _ => 0 where
  wellFormed := reachable_start.wellFormed
  nextGraph := rfl
  generation hown := by cases hown
  fresh _ := rfl
  memo hmemo := by cases hmemo

end Tracked

/-- What a request does to the counters. -/
theorem Tracked.step (hs : s.Tracked epochs) (hgraphs : s.graphs.size < 2 ^ 32)
    (hepochs : ∀ graph, epochs graph < 2 ^ 32) (request : Request) :
    ∃ epochs', (s.step request).2.Tracked epochs' ∧
      (s.step request).2.graphs.size = s.graphs.size + [request].countP Request.makesGraph ∧
      ∀ graph, epochs' graph ≤ epochs graph + [request].count (.clear graph) := by
  cases request with
  | newGraph folds =>
      refine ⟨epochs, hs.newGraph folds, ?_, fun graph => Nat.le_add_right _ _⟩
      exact Array.size_push _
  | clear graph =>
      have hsize : (s.step (.clear graph)).2.graphs.size = s.graphs.size := Array.size_modify
      by_cases hgraph : graph < s.graphs.size
      · refine ⟨_, hs.clear hgraph, hsize, fun index => ?_⟩
        by_cases hself : index = graph
        · subst hself
          rw [Function.update_self, List.count_singleton_self]
        · rw [Function.update_of_ne hself]
          exact Nat.le_add_right _ _
      · have hsame : s.graphs.modify graph Graph.clear = s.graphs := by
          apply Array.ext_getElem?
          intro index
          rw [Array.getElem?_modify]
          split
          · next hself =>
            rw [← hself, Array.getElem?_eq_none (not_lt.mp hgraph)]
            rfl
          · rfl
        have hstep : (s.step (.clear graph)).2 = s := by
          change { s with graphs := s.graphs.modify graph Graph.clear } = s
          rw [hsame]
        rw [hstep]
        exact ⟨epochs, hs, rfl, fun index => Nat.le_add_right _ _⟩
  | newMemo => exact ⟨epochs, hs.newMemo, rfl, fun graph => Nat.le_add_right _ _⟩
  | resetMemo index => exact ⟨epochs, hs.resetMemo index, rfl, fun graph => Nat.le_add_right _ _⟩
  | call graph memo call =>
      refine ⟨epochs, ?_, ?_, fun graph => Nat.le_add_right _ _⟩
      · cases hg : s.graph? graph with
        | none =>
            rw [step_call_of_none hg]
            exact hs
        | some g =>
            rw [step_call hg]
            exact hs.store hg (call.run_advances _ (hs.ready hgraphs hepochs hg memo))
      · cases hg : s.graph? graph with
        | none => rw [step_call_of_none hg]; rfl
        | some g =>
            rw [step_call hg]
            exact Array.size_setIfInBounds

/-- The counters of a session count its requests. -/
theorem tracked_run {requests : List Request} (hrange : InRange requests) :
    ∃ epochs, (start.run requests).Tracked epochs ∧
      (start.run requests).graphs.size = requests.countP Request.makesGraph ∧
      ∀ graph, epochs graph ≤ requests.count (.clear graph) := by
  induction requests using List.reverseRecOn with
  | nil => exact ⟨fun _ => 0, .start, rfl, fun _ => le_rfl⟩
  | append_singleton requests request ih =>
      obtain ⟨hgraphs, hclears⟩ := hrange
      simp only [List.countP_append, List.count_append] at hgraphs hclears
      obtain ⟨epochs, hs, hsize, hepochs⟩ :=
        ih ⟨by omega, fun graph => lt_of_le_of_lt (Nat.le_add_right _ _) (hclears graph)⟩
      obtain ⟨epochs', hs', hsize', hepochs'⟩ := hs.step (by omega) (fun graph =>
        lt_of_le_of_lt ((hepochs graph).trans (Nat.le_add_right _ _)) (hclears graph)) request
      rw [run_concat]
      refine ⟨epochs', hs', ?_, fun graph => ?_⟩
      · rw [List.countP_append, ← hsize]
        exact hsize'
      · rw [List.count_append]
        exact (hepochs' graph).trans (Nat.add_le_add_right (hepochs graph) _)

/-- In a session whose counters are in range, whatever has been called in it, every graph is ready
for differentiation with every memo. -/
theorem ReachableInRange.ready (hs : s.ReachableInRange) {graph : Nat} {g : Graph}
    (hg : s.graph? graph = some g) (memo : Option Nat) : Workspace.Ready ⟨g, s.memoFor memo⟩ := by
  obtain ⟨requests, hrange, rfl⟩ := hs
  obtain ⟨epochs, htracked, hsize, hepochs⟩ := tracked_run hrange
  exact htracked.ready (hsize ▸ hrange.graphs)
    (fun graph => lt_of_le_of_lt (hepochs graph) (hrange.epochs graph)) hg memo

/-- Every graph is ready for differentiation with a fresh memo, in whatever range the counters of
the session are. -/
theorem Reachable.ready (hs : s.Reachable) {graph : Nat} {g : Graph} {memo : Option Nat}
    (hg : s.graph? graph = some g) (hmemo : memo = none ∨ s.ReachableInRange) :
    Workspace.Ready ⟨g, s.memoFor memo⟩ := by
  rcases hmemo with rfl | hrange
  · exact ⟨hs.wellFormed.graph hg, fun hcurrent => nomatch hcurrent⟩
  · exact hrange.ready hg memo

/-- Calls do not count. -/
theorem ReachableInRange.step_call (hs : s.ReachableInRange) (graph : Nat) (memo : Option Nat)
    (call : Call) : (s.step (.call graph memo call)).2.ReachableInRange := by
  obtain ⟨requests, hrange, rfl⟩ := hs
  refine ⟨requests ++ [.call graph memo call], ⟨?_, fun cleared => ?_⟩, (run_concat _ _ _).symm⟩
  · rw [List.countP_append]
    exact hrange.graphs
  · rw [List.count_append]
    exact hrange.epochs cleared

theorem inRange_square : square.ReachableInRange := by
  refine ⟨[.newGraph false, .call 0 none (.declare "x"),
    .call 0 none (.operation .mul [⟨0, 0, 1⟩, ⟨0, 0, 1⟩])], ⟨by decide, fun graph => ?_⟩, rfl⟩
  exact lt_of_le_of_lt List.count_le_length (by decide)

end Session

end ExprGraph
