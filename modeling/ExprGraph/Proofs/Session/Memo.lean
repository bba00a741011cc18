import Mathlib
import ExprGraph.Proofs.Derivative.Coverage
import ExprGraph.Proofs.Session.Handles

/-!
# Memos over whole runs

A memo is used with several graphs, which grow and are cleared between its uses.  As long as no
counter has run over, it starts over whenever it is used with another graph or epoch, so nothing
that is built with it depends on what it has been through.  What it has are the derivatives of the
nodes below those asked for since.
-/

namespace ExprGraph

open ExprGraph.Graph

/-- A derivative that has been asked for with success, and the graph as the call has left it. -/
structure Inquiry where
  graph : Graph
  node : Handle
  var : Handle

/-- The memo has the derivatives of the nodes below those asked for, and belongs to their graph. -/
structure Memo.Covers (memo : Memo) (inquiries : List Inquiry) : Prop where
  generation {q : Inquiry} : q ∈ inquiries → memo.generation = some q.graph.generation
  mem_iff {m x : Handle} : (m, x) ∈ memo.derivatives ↔
    ∃ q ∈ inquiries, q.var = x ∧ q.graph.Reaches q.node m

theorem Memo.covers_empty : Memo.empty.Covers [] :=
  ⟨nofun, by simp [Memo.empty]⟩

namespace Session

variable {s : Session} {epochs : Nat → Nat}

/-- What has been asked for through the memo of a number since it was emptied, after one more
request.  A memo is emptied by a reset, and by a call on a graph or epoch that it does not belong
to. -/
def inquire (s : Session) (index : Nat) (before : List Inquiry) : Request → List Inquiry
  | .newMemo => if s.memos.size = index then [] else before
  | .resetMemo memo => if memo = index then [] else before
  | .call graph (some memo) call =>
    if memo = index then
      match s.graph? graph with
      | none => before
      | some g =>
        let w : Workspace := ⟨g, s.memoFor (some index)⟩
        let w' := endState call.run w
        (if w'.memo.generation = w.memo.generation then before else []) ++
          (call.asks w).map fun (node, var) => ⟨w'.graph, node, var⟩
    else before
  | _ => before

/-- What has been asked for through the memo of a number since it was last emptied. -/
def inquiries (index : Nat) (requests : List Request) : List Inquiry :=
  (requests.foldl (fun (s, before) request => ((s.step request).2, s.inquire index before request))
    (start, [])).2

theorem inquiries_concat (index : Nat) (requests : List Request) (request : Request) :
    inquiries index (requests ++ [request]) =
      (start.run requests).inquire index (inquiries index requests) request := by
  have hfold : ∀ (s : Session) (before : List Inquiry),
      (requests.foldl (fun (s, before) request =>
        ((s.step request).2, s.inquire index before request)) (s, before)).1 = s.run requests := by
    induction requests with
    | nil => exact fun _ _ => rfl
    | cons first rest ih => exact fun s before => ih _ _
  rw [inquiries, List.foldl_append, ← hfold start []]
  rfl

theorem memoFor_of_memo {index : Nat} {memo : Memo} (hmemo : s.memos[index]? = some memo) :
    s.memoFor (some index) = memo := by
  change s.memos[index]?.getD Memo.empty = memo
  rw [hmemo, Option.getD_some]

/-- Where a memo comes from that a session has after a request: it has just begun, or it was there
before, or it is the one that a call has been given. -/
theorem memo_of_step {request : Request} {index : Nat} {memo : Memo}
    (hmemo : (s.step request).2.memos[index]? = some memo) (before : List Inquiry) :
    (memo = Memo.empty ∧ s.inquire index before request = []) ∨
      (s.memos[index]? = some memo ∧ s.inquire index before request = before) ∨
      ∃ graph call g own, request = .call graph (some index) call ∧ s.graph? graph = some g ∧
        s.memos[index]? = some own ∧ memo = (endState call.run ⟨g, own⟩).memo ∧
        s.inquire index before request =
          (if memo.generation = own.generation then before else []) ++
            (call.asks ⟨g, own⟩).map fun (node, var) =>
              ⟨(endState call.run ⟨g, own⟩).graph, node, var⟩ := by
  cases request with
  | newGraph folds => exact .inr (.inl ⟨hmemo, rfl⟩)
  | clear cleared => exact .inr (.inl ⟨hmemo, rfl⟩)
  | newMemo =>
      change (s.memos.push Memo.empty)[index]? = some memo at hmemo
      rw [Array.getElem?_push] at hmemo
      split at hmemo
      · next hlast => exact .inl ⟨(Option.some.inj hmemo).symm, if_pos hlast.symm⟩
      · next hother => exact .inr (.inl ⟨hmemo, if_neg fun hlast => hother hlast.symm⟩)
  | resetMemo reset =>
      change (s.memos.modify reset fun _ => Memo.empty)[index]? = some memo at hmemo
      rw [Array.getElem?_modify] at hmemo
      split at hmemo
      · next hself =>
        obtain ⟨_, -, rfl⟩ := Option.map_eq_some_iff.mp hmemo
        exact .inl ⟨rfl, if_pos hself⟩
      · next hother => exact .inr (.inl ⟨hmemo, if_neg hother⟩)
  | call graph own call =>
      cases hg : s.graph? graph with
      | none =>
          rw [step_call_of_none hg] at hmemo
          refine .inr (.inl ⟨hmemo, ?_⟩)
          cases own with
          | none => rfl
          | some own => simp only [inquire, hg, ite_self]
      | some g =>
          rw [step_call hg] at hmemo
          cases own with
          | none => exact .inr (.inl ⟨hmemo, rfl⟩)
          | some own =>
              change (s.memos.setIfInBounds own _)[index]? = some memo at hmemo
              rw [Array.getElem?_setIfInBounds] at hmemo
              split_ifs at hmemo with hself hbound
              · subst hself
                have hfound : s.memos[own]? = some (s.memoFor (some own)) := by
                  rw [memoFor_of_memo (Array.getElem?_eq_getElem hbound),
                    Array.getElem?_eq_getElem hbound]
                obtain rfl := Option.some.inj hmemo
                refine .inr (.inr ⟨graph, call, g, _, rfl, hg, hfound, rfl, ?_⟩)
                simp only [inquire, hg, if_true]
              · exact .inr (.inl ⟨hmemo, if_neg hself⟩)

/-- If a memo from before a request belongs to a graph after it, the graph has neither begun nor
been cleared in between. -/
theorem InRange.extends_of_memo {requests : List Request} {request : Request}
    (hrange : InRange (requests ++ [request])) {index graph : Nat} {memo : Memo} {g' : Graph}
    (hmemo : (start.run requests).memos[index]? = some memo)
    (hg' : (start.run (requests ++ [request])).graph? graph = some g')
    (hcurrent : memo.generation = some g'.generation) :
    ∃ g, (start.run requests).graph? graph = some g ∧ g.Extends g' := by
  obtain ⟨epochs, hs, hsize, hepochs⟩ := tracked_run hrange.of_append
  obtain ⟨epochs', hs', hsize', -⟩ := tracked_run hrange
  obtain ⟨origin, epoch, horigin, hle, hsame⟩ := hs.generation_of_memo hmemo hcurrent
  have hgraphs := hrange.graphs
  have hfewer := hrange.of_append.graphs
  -- the memo is one of this graph, which has been there before
  obtain ⟨hgraph', hgeneration'⟩ := hs'.generation_of_graph hg'
  obtain ⟨hid, hepoch⟩ := Prod.mk.inj hsame
  have hid' := (Prod.mk.inj hgeneration').1
  obtain rfl : graph = origin :=
    Nat.succ_injective (ofNat_inj_of_lt (by omega) (by omega) (hid'.symm.trans hid))
  obtain ⟨g, hg⟩ : ∃ g, (start.run requests).graph? graph = some g :=
    ⟨_, graph?_eq_some_iff.mpr ⟨_, Array.getElem?_eq_getElem horigin, rfl⟩⟩
  refine ⟨g, hg, ?_⟩
  obtain ⟨g'', hg'', hstep⟩ := graph?_step hg request
  rw [run_concat] at hg'
  obtain rfl := Option.some.inj (hg'.symm.trans hg'')
  rcases hstep with ⟨rfl, -, hnext⟩ | ⟨-, hext⟩
  · -- after a clear the epoch is later than that of the memo
    have hnow := (Prod.mk.inj (hs.generation_of_graph hg).2).2
    have hclears := hrange.epochs graph
    rw [List.count_append, List.count_singleton_self] at hclears
    have hbound := hepochs graph
    have hlater : UInt32.ofNat (epochs graph + 1) = UInt32.ofNat epoch := by
      rw [UInt32.ofNat_add, ← hnow, ← hepoch]
      exact hnext.symm
    have heq := ofNat_inj_of_lt (by omega) (by omega) hlater
    omega
  · exact hext

/-- In a session whose counters are in range no memo shows: its entries are what would be built. -/
theorem InRange.honest {requests : List Request} (hrange : InRange requests) {graph index : Nat}
    {g : Graph} {memo : Memo} (hg : (start.run requests).graph? graph = some g)
    (hmemo : (start.run requests).memos[index]? = some memo) : Workspace.Honest ⟨g, memo⟩ := by
  induction requests using List.reverseRecOn generalizing graph g memo with
  | nil => cases hmemo
  | append_singleton requests request ih =>
      have hbefore := hrange.of_append
      refine ⟨(Reachable.wellFormed ⟨_, rfl⟩).graph hg, fun hcurrent => ?_⟩
      -- a memo that the request has left alone
      have hsame : ∀ memo : Memo, (start.run requests).memos[index]? = some memo →
          memo.generation = some g.generation → memo.FaithfulIn g := by
        intro memo hmemo hcurrent
        obtain ⟨g₀, hg₀, hext⟩ := hrange.extends_of_memo hmemo hg hcurrent
        have hgeneration : g.generation = g₀.generation := hext.generation_eq
        exact ((ih hbefore hg₀ hmemo).memo (hcurrent.trans (congrArg some hgeneration))).of_extends
          hext
      have hmemo' := hmemo
      rw [run_concat] at hmemo'
      rcases memo_of_step hmemo' [] with ⟨rfl, -⟩ | ⟨hold, -⟩ |
        ⟨graph₀, call, g₀, own, rfl, hg₀, hown, rfl, -⟩
      · cases hcurrent
      · exact hsame memo hold hcurrent
      · have hready : Workspace.Ready ⟨g₀, (start.run requests).memoFor (some index)⟩ :=
          ReachableInRange.ready ⟨requests, hbefore, rfl⟩ hg₀ (some index)
        rw [memoFor_of_memo hown] at hready
        have hafter := graph?_step_call hg₀ (some index) call
        rw [memoFor_of_memo hown, ← run_concat] at hafter
        by_cases hself : graph = graph₀
        · subst hself
          obtain rfl := Option.some.inj (hg.symm.trans hafter)
          exact (call.run_trusted ⟨hready, ih hbefore hg₀ hown⟩).honest.memo hcurrent
        · rcases (call.run_advances _ hready).memo with hkept | hother
          · rw [hkept] at hcurrent ⊢
            exact hsame own hown hcurrent
          · have hids := Option.some.inj (hother.symm.trans hcurrent)
            exact absurd (Prod.mk.inj hids).1 (hrange.id_ne hg hafter (Ne.symm hself))

theorem InRange.trusted {requests : List Request} (hrange : InRange requests) {graph : Nat}
    {g : Graph} (hg : (start.run requests).graph? graph = some g) (memo : Option Nat) :
    Workspace.Trusted ⟨g, (start.run requests).memoFor memo⟩ := by
  have hready : Workspace.Ready ⟨g, (start.run requests).memoFor memo⟩ :=
    ReachableInRange.ready ⟨requests, hrange, rfl⟩ hg memo
  refine ⟨hready, ?_⟩
  have hfresh := (Workspace.trusted_empty hready.graph).honest
  cases memo with
  | none => exact hfresh
  | some index =>
      cases hmemo : (start.run requests).memos[index]? with
      | none =>
          have hempty : (start.run requests).memoFor (some index) = Memo.empty := by
            change (start.run requests).memos[index]?.getD Memo.empty = Memo.empty
            rw [hmemo, Option.getD_none]
          rw [hempty]
          exact hfresh
      | some memo =>
          rw [memoFor_of_memo hmemo]
          exact hrange.honest hg hmemo

/-- A fresh memo does not show in whatever range the counters of the session are. -/
theorem Reachable.trusted (hs : s.Reachable) {graph : Nat} {g : Graph} {memo : Option Nat}
    (hg : s.graph? graph = some g) (hmemo : memo = none ∨ s.ReachableInRange) :
    Workspace.Trusted ⟨g, s.memoFor memo⟩ := by
  rcases hmemo with rfl | ⟨requests, hrange, rfl⟩
  · exact Workspace.trusted_empty (hs.wellFormed.graph hg)
  · exact hrange.trusted hg memo

/-- A call adds what it asks for to what a memo covers, which is nothing else if the memo has
started over. -/
theorem covers_call {before : List Inquiry} {asks : List (Handle × Handle)} {w w' : Workspace}
    (hmemo : w.memo.Covers before) (hcall : w.Collects asks w') :
    w'.memo.Covers ((if w'.memo.generation = w.memo.generation then before else []) ++
      asks.map fun (node, var) => ⟨w'.graph, node, var⟩) where
  generation := by
    intro q hq
    rcases List.mem_append.mp hq with hold | hnew
    · split_ifs at hold with hsame
      · exact hsame.trans (hmemo.generation hold)
      · cases hold
    · obtain ⟨ask, hask, rfl⟩ := List.mem_map.mp hnew
      exact hcall.current (List.ne_nil_of_mem hask)
  mem_iff := by
    intro m x
    rw [hcall.mem_iff, hmemo.mem_iff]
    simp only [List.mem_append, List.mem_map]
    constructor
    · rintro (⟨hsame, q, hq, hbelow⟩ | ⟨ask, hask, hbelow⟩)
      · exact ⟨q, .inl (by rwa [if_pos hsame]), hbelow⟩
      · exact ⟨_, .inr ⟨ask, hask, rfl⟩, hbelow⟩
    · rintro ⟨q, hold | ⟨ask, hask, rfl⟩, hbelow⟩
      · split_ifs at hold with hsame
        · exact .inl ⟨hsame, q, hold, hbelow⟩
        · cases hold
      · exact .inr ⟨ask, hask, hbelow⟩

/-- What a memo has are the derivatives of the nodes below those asked for since it was emptied. -/
theorem InRange.covers {requests : List Request} (hrange : InRange requests) {index : Nat}
    {memo : Memo} (hmemo : (start.run requests).memos[index]? = some memo) :
    memo.Covers (inquiries index requests) := by
  induction requests using List.reverseRecOn generalizing memo with
  | nil => cases hmemo
  | append_singleton requests request ih =>
      have hbefore := hrange.of_append
      rw [inquiries_concat]
      rw [run_concat] at hmemo
      rcases memo_of_step hmemo (inquiries index requests) with ⟨rfl, hnone⟩ | ⟨hold, hsame⟩ |
        ⟨graph, call, g, own, rfl, hg, hown, rfl, hcall⟩
      · rw [hnone]
        exact Memo.covers_empty
      · rw [hsame]
        exact ih hbefore hold
      · have htrusted := hbefore.trusted hg (some index)
        rw [memoFor_of_memo hown] at htrusted
        rw [hcall]
        exact covers_call (w := ⟨g, own⟩) (ih hbefore hown) (call.run_collects htrusted)

/-- After some requests no memo shows: whatever is done with it has the outcome it has without, and
its entries are the derivatives that have been asked for. -/
structure MemoInvisible (requests : List Request) : Prop where
  /-- A derivative has the outcome that the direct recursion has, errors included. -/
  derivative {graph : Nat} {g : Graph} (hg : (start.run requests).graph? graph = some g)
    (memo : Option Nat) (node var : Handle) :
    withoutMemo (DiffM.derivative node var ⟨g, (start.run requests).memoFor memo⟩) =
      BuildM.derivative node var g
  /-- The direct recursion ends, with any bound above the depth of the node. -/
  direct {graph : Nat} {g : Graph} (hg : (start.run requests).graph? graph = some g)
    {node var : Handle} (hlive : g.Live node) (hvar : g.IsVariable var) :
    ∃ d g', BuildM.derivative node var g = .ok d g' ∧
      ∀ depth, g.placeOf node < depth → BuildM.differentiateBelow var depth node g = .ok d g'
  /-- Every call has the outcome that it has with a fresh memo. -/
  call {graph : Nat} {g : Graph} (hg : (start.run requests).graph? graph = some g)
    (memo : Option Nat) (call : Call) :
    withoutMemo (call.run ⟨g, (start.run requests).memoFor memo⟩) =
      withoutMemo (call.run ⟨g, Memo.empty⟩)
  /-- A call leaves a memo the generation it has, or gives it that of the graph. -/
  generation {graph : Nat} {g : Graph} (hg : (start.run requests).graph? graph = some g)
    (memo : Option Nat) (call : Call) :
    let before := (start.run requests).memoFor memo
    let after := (endState call.run ⟨g, before⟩).memo
    after.generation = before.generation ∨ after.generation = some g.generation
  /-- The derivatives kept are those of the nodes below the ones asked for since a memo has been
  given its generation. -/
  table {index : Nat} {memo : Memo} (hmemo : (start.run requests).memos[index]? = some memo) :
    memo.Covers (inquiries index requests)

/-- Before a counter has run over, no memo shows. -/
theorem InRange.memo_invisible {requests : List Request} (hrange : InRange requests) :
    MemoInvisible requests where
  derivative hg memo node var := DiffM.derivative_outcome (hrange.trusted hg memo) node var
  direct hg node var hlive hvar := by
    have htrusted := hrange.trusted hg none
    obtain ⟨d, w', hrun, hdirect, -⟩ := DiffM.derivative_direct htrusted hlive hvar
    have houtcome := DiffM.derivative_outcome htrusted node var
    rw [hrun] at houtcome
    exact ⟨d, w'.graph, houtcome.symm, hdirect⟩
  call hg memo call := call.run_fresh (hrange.trusted hg memo)
  generation hg memo call := by
    have hcollects := call.run_collects (hrange.trusted hg memo)
    refine hcollects.generation.imp_right fun hcurrent => ?_
    exact hcurrent.trans (congrArg some (Workspace.generation_eq_of_grows hcollects.grows))
  table := hrange.covers

/-- A run in which a square is differentiated with a memo. -/
def derivedSquare : List Request :=
  [.newGraph false, .call 0 none (.declare "x"),
    .call 0 none (.operation .mul [⟨0, 0, 1⟩, ⟨0, 0, 1⟩]), .newMemo] ++
      [.call 0 (some 0) (.derivative ⟨1, 0, 1⟩ ⟨0, 0, 1⟩)]

/-- The memo has the derivative of the variable afterwards, which has not been asked for, and that
of the square, which it gives out as the direct recursion does. -/
theorem memo_invisible_square :
    InRange derivedSquare ∧
    ∃ g memo d g', (start.run derivedSquare).graph? 0 = some g ∧
      (start.run derivedSquare).memos[0]? = some memo ∧
      (⟨1, 0, 1⟩, ⟨0, 0, 1⟩) ∈ memo.derivatives ∧ (⟨0, 0, 1⟩, ⟨0, 0, 1⟩) ∈ memo.derivatives ∧
      BuildM.derivative ⟨1, 0, 1⟩ ⟨0, 0, 1⟩ g = .ok d g' ∧
      withoutMemo (DiffM.derivative ⟨1, 0, 1⟩ ⟨0, 0, 1⟩ ⟨g, memo⟩) = .ok d g' := by
  have hrange : InRange derivedSquare :=
    ⟨by decide, fun graph => lt_of_le_of_lt List.count_le_length (by decide)⟩
  have hinvisible := hrange.memo_invisible
  -- before the last request there are the square and a fresh memo
  have hlive : squareGraph.Live ⟨1, 0, 1⟩ := ⟨_, rfl⟩
  have hvar : squareGraph.IsVariable ⟨0, 0, 1⟩ := ⟨1, "x", rfl⟩
  have hbefore : (start.run [.newGraph false, .call 0 none (.declare "x"),
      .call 0 none (.operation .mul [⟨0, 0, 1⟩, ⟨0, 0, 1⟩]), .newMemo]).graph? 0 =
        some squareGraph := graph?_square
  have htrusted := hrange.of_append.trusted hbefore (some 0)
  have hasks := (DiffM.derivative_asks htrusted hlive hvar).asked_eq [(⟨1, 0, 1⟩, ⟨0, 0, 1⟩)]
  have hgraph := graph?_step_call hbefore (some 0) (.derivative ⟨1, 0, 1⟩ ⟨0, 0, 1⟩)
  rw [← run_concat] at hgraph
  have hext : squareGraph.Extends (endState (Call.derivative ⟨1, 0, 1⟩ ⟨0, 0, 1⟩).run
      ⟨squareGraph, Memo.empty⟩).graph :=
    (Call.run_keeps (.derivative ⟨1, 0, 1⟩ ⟨0, 0, 1⟩) ⟨squareGraph, Memo.empty⟩).extends
  obtain ⟨memo, hmemo⟩ : ∃ memo, (start.run derivedSquare).memos[0]? = some memo := by
    rw [derivedSquare, run_concat, step_call hbefore]
    exact ⟨_, Array.getElem?_setIfInBounds_self_of_lt (by decide)⟩
  obtain ⟨d, g', hdirect, -⟩ := hinvisible.direct hgraph (hext.live hlive) (hext.isVariable hvar)
  have hcovered : ∀ m, (endState (Call.derivative ⟨1, 0, 1⟩ ⟨0, 0, 1⟩).run
      ⟨squareGraph, Memo.empty⟩).graph.Reaches ⟨1, 0, 1⟩ m →
        (m, ⟨0, 0, 1⟩) ∈ memo.derivatives := by
    intro m hreach
    refine (hinvisible.table hmemo).mem_iff.mpr ?_
    rw [derivedSquare, inquiries_concat]
    simp only [inquire, hbefore, if_true]
    refine ⟨_, List.mem_append_right _ (List.mem_map.mpr ⟨(⟨1, 0, 1⟩, ⟨0, 0, 1⟩), ?_, rfl⟩), rfl,
      hreach⟩
    rw [Call.asks, hasks]
    exact List.mem_singleton_self _
  refine ⟨hrange, _, memo, d, g', hgraph, hmemo, hcovered _ (.refl _), hcovered _ ?_, hdirect, ?_⟩
  · refine .step ?_ (.refl _)
    rw [hext.argsOf_eq hlive]
    exact List.mem_cons_self
  · have houtcome := hinvisible.derivative hgraph (some 0) ⟨1, 0, 1⟩ ⟨0, 0, 1⟩
    rw [memoFor_of_memo hmemo] at houtcome
    rw [houtcome, hdirect]

end Session

end ExprGraph
