import Mathlib
import ExprGraph.Proofs.Derivative.Answer
import ExprGraph.Proofs.Session.Range

/-!
# Handles over whole runs

A handle that a graph has handed out leads to its node until the graph is cleared, whatever else is
called meanwhile.  After a clear it is stale, and in another graph it is foreign.  Slots are used
again after a clear, so this rests on the epoch and the identity that a handle carries: no two
graphs have the same identity, and a graph does not come back to an earlier epoch.
-/

namespace ExprGraph

open ExprGraph.Graph

namespace Graph

variable {g : Graph} {h : Handle}

theorem node_of_graph_ne (hgraph : h.graph ≠ g.id) : g.node h = .error .foreignNode := by
  rw [node, if_pos hgraph]

theorem node_of_epoch_ne (hgraph : h.graph = g.id) (hepoch : h.epoch ≠ g.epoch) :
    g.node h = .error (.staleNode h.epoch g.epoch) := by
  rw [node, if_neg (not_not.mpr hgraph), if_pos hepoch]

end Graph

namespace Session

variable {s : Session}

/-- What a request does to a graph of the session: a clear begins its next epoch, and under anything
else its nodes stay. -/
theorem graph?_step {graph : Nat} {g : Graph} (hg : s.graph? graph = some g) (request : Request) :
    ∃ g', (s.step request).2.graph? graph = some g' ∧
      ((request = .clear graph ∧ g'.id = g.id ∧ g'.epoch = g.epoch + 1) ∨
        (request ≠ .clear graph ∧ g.Extends g')) := by
  obtain ⟨own, hown, rfl⟩ := graph?_eq_some_iff.mp hg
  have hsize := (Array.getElem?_eq_some_iff.mp hown).1
  have hsame : ∀ s' : Session, s'.graphs[graph]? = some own → ∃ g', s'.graph? graph = some g' ∧
      Extends { own with nextVariable := s.nextVariable } g' := fun s' hown' =>
    ⟨_, graph?_eq_some_iff.mpr ⟨own, hown', rfl⟩, rfl, rfl, rfl, rfl, id⟩
  cases request with
  | newGraph folds =>
      have hown' : (s.graphs.push (Graph.empty s.nextGraph folds))[graph]? = some own := by
        rw [Array.getElem?_push_lt hsize, ← Array.getElem?_eq_getElem hsize, hown]
      obtain ⟨g', hg', hext⟩ := hsame (s.step (.newGraph folds)).2 hown'
      exact ⟨g', hg', .inr ⟨nofun, hext⟩⟩
  | clear cleared =>
      by_cases hself : cleared = graph
      · subst hself
        have hown' : (s.graphs.modify cleared Graph.clear)[cleared]? = some own.clear := by
          rw [Array.getElem?_modify, if_pos rfl, hown]
          rfl
        exact ⟨_, graph?_eq_some_iff.mpr ⟨own.clear, hown', rfl⟩, .inl ⟨rfl, rfl, rfl⟩⟩
      · have hown' : (s.graphs.modify cleared Graph.clear)[graph]? = some own := by
          rw [Array.getElem?_modify, if_neg hself, hown]
        obtain ⟨g', hg', hext⟩ := hsame (s.step (.clear cleared)).2 hown'
        exact ⟨g', hg', .inr ⟨fun heq => hself (Request.clear.inj heq), hext⟩⟩
  | newMemo =>
      obtain ⟨g', hg', hext⟩ := hsame (s.step .newMemo).2 hown
      exact ⟨g', hg', .inr ⟨nofun, hext⟩⟩
  | resetMemo memo =>
      obtain ⟨g', hg', hext⟩ := hsame (s.step (.resetMemo memo)).2 hown
      exact ⟨g', hg', .inr ⟨nofun, hext⟩⟩
  | call index memo call =>
      by_cases hself : index = graph
      · subst hself
        have hgrows : Graph.Grows _ (endState call.run ⟨_, s.memoFor memo⟩).graph :=
          call.run_keeps ⟨{ own with nextVariable := s.nextVariable }, s.memoFor memo⟩
        exact ⟨_, graph?_step_call hg memo call, .inr ⟨nofun, hgrows.extends⟩⟩
      · cases hother : s.graph? index with
        | none =>
            rw [step_call_of_none hother]
            exact ⟨_, hg, .inr ⟨nofun, .refl _⟩⟩
        | some g =>
            rw [step_call hother]
            obtain ⟨g', hg', hext⟩ := hsame (s.store index memo _) (by
              change (s.graphs.setIfInBounds index _)[graph]? = some own
              rw [Array.getElem?_setIfInBounds_ne hself]
              exact hown)
            exact ⟨g', hg', .inr ⟨nofun, hext⟩⟩

/-- What requests do to a graph of the session: its epoch counts the clears, and its nodes stay as
long as there is none. -/
theorem graph?_run {graph : Nat} {g : Graph} (hg : s.graph? graph = some g)
    (requests : List Request) :
    ∃ g', (s.run requests).graph? graph = some g' ∧ g'.id = g.id ∧
      g'.epoch = g.epoch + UInt32.ofNat (requests.count (.clear graph)) ∧
      (.clear graph ∉ requests → g.Extends g') := by
  induction requests using List.reverseRecOn with
  | nil => exact ⟨g, hg, rfl, (UInt32.add_zero g.epoch).symm, fun _ => .refl g⟩
  | append_singleton requests request ih =>
      obtain ⟨g₁, hg₁, hid, hepoch, hkept⟩ := ih
      obtain ⟨g₂, hg₂, hstep⟩ := graph?_step hg₁ request
      refine ⟨g₂, by rw [run_concat]; exact hg₂, ?_⟩
      rw [List.count_append]
      rcases hstep with ⟨rfl, hid', hepoch'⟩ | ⟨hrequest, hext⟩
      · refine ⟨hid'.trans hid, ?_, fun habsent => absurd (by simp) habsent⟩
        rw [hepoch', hepoch, List.count_singleton_self, UInt32.ofNat_add, ← UInt32.add_assoc]
        rfl
      · refine ⟨hext.id.trans hid, ?_, fun habsent => ?_⟩
        · rw [hext.epoch, hepoch, List.count_singleton, if_neg (by simpa using hrequest),
            Nat.add_zero]
        · exact (hkept fun hmem => habsent (List.mem_append_left _ hmem)).trans hext

/-- Before a counter has run over, no two graphs have the same identity. -/
theorem InRange.id_ne {requests : List Request} (hrange : InRange requests) {graph other : Nat}
    {g g' : Graph} (hg : (start.run requests).graph? graph = some g)
    (hg' : (start.run requests).graph? other = some g') (hne : other ≠ graph) : g'.id ≠ g.id := by
  obtain ⟨epochs, htracked, hsize, -⟩ := tracked_run hrange
  have hgraphs := hrange.graphs
  obtain ⟨hlt, hgraph⟩ := htracked.generation_of_graph hg
  obtain ⟨hlt', hother⟩ := htracked.generation_of_graph hg'
  have hid : g.id = UInt32.ofNat (graph + 1) := (Prod.mk.inj hgraph).1
  have hid' : g'.id = UInt32.ofNat (other + 1) := (Prod.mk.inj hother).1
  rw [hid, hid']
  intro hsame
  exact hne (Nat.succ_injective (ofNat_inj_of_lt (by omega) (by omega) hsame))

/-- What has become of a handle that named a node of some graph.  Here `cleared` says whether the
graph has been cleared meanwhile. -/
structure Fate (now : Session) (graph : Nat) (cleared : Prop) (h : Handle) (n : Node) : Prop where
  present : ∃ g, now.graph? graph = some g
  live_iff {other : Nat} {g : Graph} : now.graph? other = some g →
    (g.Live h ↔ other = graph ∧ ¬cleared)
  node {g : Graph} : now.graph? graph = some g → ¬cleared → g.node h = .ok n
  foreign_iff {other : Nat} {g : Graph} : now.graph? other = some g →
    (g.node h = .error .foreignNode ↔ other ≠ graph)
  stale {g : Graph} : now.graph? graph = some g → cleared →
    g.node h = .error (.staleNode h.epoch g.epoch)

/-- A handle that names a node stays good for that node until its graph is cleared, and for nothing
else. -/
theorem InRange.fate {before after : List Request} (hrange : InRange (before ++ after))
    {graph : Nat} {g : Graph} (hg : (start.run before).graph? graph = some g)
    {h : Handle} {n : Node} (hn : g.node h = .ok n) :
    Fate (start.run (before ++ after)) graph (.clear graph ∈ after) h n := by
  obtain ⟨now, hnow, hid, hepoch, hkept⟩ := graph?_run hg after
  rw [← run_append] at hnow
  obtain ⟨hgraph, hepoch'⟩ := graph_eq_of_live ⟨n, hn⟩
  have hown : h.graph = now.id := hgraph.trans hid.symm
  have hforeign : ∀ {other g'}, (start.run (before ++ after)).graph? other = some g' →
      other ≠ graph → g'.node h = .error .foreignNode := by
    intro other g' hg' hne
    exact node_of_graph_ne (hown.trans_ne (hrange.id_ne hnow hg' hne).symm)
  have hstale : .clear graph ∈ after → now.node h = .error (.staleNode h.epoch now.epoch) := by
    intro hcleared
    refine node_of_epoch_ne hown ?_
    -- fewer clears than there are epochs, but at least one
    have hpos : 0 < after.count (.clear graph) := List.count_pos_iff.mpr hcleared
    have hlt : after.count (.clear graph) < 2 ^ 32 :=
      ((List.sublist_append_right before after).count_le _).trans_lt (hrange.epochs graph)
    rw [hepoch, ← hepoch']
    intro hsame
    have hzero : UInt32.ofNat (after.count (.clear graph)) = UInt32.ofNat 0 := by
      have hcancel : h.epoch + UInt32.ofNat (after.count (.clear graph)) = h.epoch + 0 := by
        rw [← hsame, UInt32.add_zero]
      exact UInt32.add_right_inj h.epoch |>.mp hcancel
    exact hpos.ne' (ofNat_inj_of_lt hlt (by decide) hzero)
  refine ⟨⟨now, hnow⟩, fun {other g'} hg' => ⟨fun hlive => ?_, ?_⟩, fun {g'} hg' hcleared => ?_,
    fun {other g'} hg' => ⟨fun herror hself => ?_, hforeign hg'⟩, fun {g'} hg' hcleared => ?_⟩
  · obtain ⟨m, hm⟩ := hlive
    by_cases hself : other = graph
    · subst hself
      obtain rfl : now = g' := Option.some.inj (hnow.symm.trans hg')
      refine ⟨rfl, fun hcleared => ?_⟩
      cases hm.symm.trans (hstale hcleared)
    · cases hm.symm.trans (hforeign hg' hself)
  · rintro ⟨rfl, hcleared⟩
    obtain rfl : now = g' := Option.some.inj (hnow.symm.trans hg')
    exact ⟨n, (hkept hcleared).node_eq hn⟩
  · obtain rfl : now = g' := Option.some.inj (hnow.symm.trans hg')
    exact (hkept hcleared).node_eq hn
  · subst hself
    obtain rfl : now = g' := Option.some.inj (hnow.symm.trans hg')
    by_cases hcleared : .clear other ∈ after
    · cases herror.symm.trans (hstale hcleared)
    · cases herror.symm.trans ((hkept hcleared).node_eq hn)
  · obtain rfl : now = g' := Option.some.inj (hnow.symm.trans hg')
    exact hstale hcleared

/-- A request hands out a handle of a graph: its answer contains the handle or a user of it, from
which it can be read off. -/
def HandsOut (before : List Request) (request : Request) (graph : Nat) (h : Handle) : Prop :=
  ∃ memo call answer g, request = .call graph memo call ∧
    ((start.run before).step request).1 = .ok answer ∧
    (start.run (before ++ [request])).graph? graph = some g ∧
    ∃ root ∈ answer.toList, g.Reaches root h

/-- A handle names a node when it is handed out. -/
theorem HandsOut.exists_node {before : List Request} {request : Request} {graph : Nat} {h : Handle}
    (hout : HandsOut before request graph h) (hrange : InRange before) :
    ∃ g n, (start.run (before ++ [request])).graph? graph = some g ∧ g.node h = .ok n := by
  obtain ⟨memo, call, answer, g', rfl, hanswer, hg', root, hroot, hreach⟩ := hout
  have hlive : g'.Live root := by
    rw [run_concat] at hg'
    cases hg : (start.run before).graph? graph with
    | none =>
        simp only [step, hg] at hanswer
        cases hanswer
    | some g =>
        have hready : Workspace.Ready ⟨g, (start.run before).memoFor memo⟩ :=
          ReachableInRange.ready ⟨before, hrange, rfl⟩ hg memo
        rw [graph?_step_call hg] at hg'
        simp only [step, hg] at hanswer
        cases hrun : call.run ⟨g, (start.run before).memoFor memo⟩ with
        | error e w =>
            rw [hrun] at hanswer
            cases hanswer
        | ok a w =>
            rw [hrun] at hanswer
            rw [endState_of_ok hrun] at hg'
            obtain rfl : a = answer := Except.ok.inj hanswer
            obtain rfl : w.graph = g' := Option.some.inj hg'
            exact (call.answer_live hready a w hrun).2 root hroot
  have hwellFormed : g'.WellFormed := (Reachable.wellFormed ⟨_, rfl⟩).graph hg'
  obtain ⟨n, hn⟩ := hwellFormed.live_of_reaches hlive hreach
  exact ⟨g', n, hg', hn⟩

/-- A handle that has been handed out leads to the node it was handed out for exactly as long as its
graph is not cleared; then it is stale, and in other graphs it is foreign.  It is not handed out
again for another node. -/
theorem InRange.handle_safe {before after : List Request} {request : Request}
    (hrange : InRange (before ++ request :: after)) {graph : Nat} {h : Handle}
    (hout : HandsOut before request graph h) :
    (∃ g n, (start.run (before ++ [request])).graph? graph = some g ∧ g.node h = .ok n ∧
      Fate (start.run (before ++ request :: after)) graph (.clear graph ∈ after) h n) ∧
    ∀ mid later rest graph' h', after = mid ++ later :: rest →
      HandsOut (before ++ request :: mid) later graph' h' →
      (graph' = graph → .clear graph ∈ mid) → h' ≠ h := by
  obtain ⟨g, n, hg, hn⟩ := hout.exists_node hrange.of_append
  have hsplit : ∀ after, before ++ request :: after = (before ++ [request]) ++ after := by simp
  refine ⟨⟨g, n, hg, hn, ?_⟩, ?_⟩
  · rw [hsplit] at hrange ⊢
    exact hrange.fate hg hn
  · rintro mid later rest graph' h' rfl hout' hcleared rfl
    have hwhole : InRange (((before ++ [request]) ++ (mid ++ [later])) ++ rest) := by
      simpa using hrange
    have hrange' := hwhole.of_append
    have huntil : InRange ((before ++ request :: mid) ++ [later]) := by simpa using hrange'
    have hrange'' := huntil.of_append
    obtain ⟨g', n', hg', hn'⟩ := hout'.exists_node hrange''
    have hfate := hrange'.fate hg hn
    have hnow :
        (before ++ [request]) ++ (mid ++ [later]) = before ++ request :: mid ++ [later] := by
      simp
    rw [hnow] at hfate
    obtain ⟨hself, hkept⟩ := (hfate.live_iff hg').mp ⟨n', hn'⟩
    exact hkept (List.mem_append_left _ (hcleared hself))

/-- A variable becomes stale when its graph is cleared. -/
theorem handle_safe_cleared :
    InRange [.newGraph true, .call 0 none (.declare "x"), .clear 0] ∧
    HandsOut [.newGraph true] (.call 0 none (.declare "x")) 0 ⟨0, 0, 1⟩ ∧
    ∃ g, (start.run [.newGraph true, .call 0 none (.declare "x"), .clear 0]).graph? 0 = some g ∧
      g.node ⟨0, 0, 1⟩ = .error (.staleNode 0 1) := by
  have hrange : InRange ([.newGraph true] ++ .call 0 none (.declare "x") :: [.clear 0]) :=
    ⟨by decide, fun graph => lt_of_le_of_lt List.count_le_length (by decide)⟩
  have hout : HandsOut [.newGraph true] (.call 0 none (.declare "x")) 0 ⟨0, 0, 1⟩ :=
    ⟨none, _, .handle ⟨0, 0, 1⟩, _, rfl, rfl, rfl, ⟨0, 0, 1⟩, List.mem_cons_self, .refl _⟩
  obtain ⟨⟨g, n, -, -, hfate⟩, -⟩ := hrange.handle_safe hout
  obtain ⟨now, hnow⟩ := hfate.present
  refine ⟨hrange, hout, now, hnow, ?_⟩
  have hstale := hfate.stale hnow (by decide)
  obtain rfl := Option.some.inj hnow
  exact hstale

end Session

end ExprGraph
