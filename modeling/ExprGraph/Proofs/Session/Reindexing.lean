import Mathlib
import ExprGraph.Proofs.Derivative.Recall
import ExprGraph.Proofs.Session.Memo

/-!
# Parts of a Jacobian

Once a Jacobian has been built, any of its rows and columns are had by asking for them: they are the
same nodes, and nothing is built for them.  This holds for as long as the graph is not cleared and
the memo is used with it only, whatever else is called in between; with another memo the nodes are
the same as well.
-/

namespace ExprGraph

open ExprGraph.Graph Workspace

/-- A request that leaves a memo what it knows of a graph: it clears neither of them, and does not
use the memo with another graph. -/
def Request.Spares (graph memo : Nat) : Request → Prop
  | .clear cleared => cleared ≠ graph
  | .resetMemo reset => reset ≠ memo
  | .call used own _ => own = some memo → used = graph
  | _ => True

instance Request.decidableSpares (graph memo : Nat) (request : Request) :
    Decidable (request.Spares graph memo) :=
  match request with
  | .clear cleared => inferInstanceAs (Decidable (cleared ≠ graph))
  | .resetMemo reset => inferInstanceAs (Decidable (reset ≠ memo))
  | .call used own _ => inferInstanceAs (Decidable (own = some memo → used = graph))
  | .newGraph _ => isTrue trivial
  | .newMemo => isTrue trivial

namespace Session

variable {s : Session} {graph index : Nat} {g : Graph} {memo : Memo}

/-- Unless a request begins a memo anew or runs a call with it, the memo stays. -/
theorem memo_step (hmemo : s.memos[index]? = some memo) {request : Request}
    (hspares : request.Spares graph index)
    (hother : ∀ call, request ≠ .call graph (some index) call) :
    (s.step request).2.memos[index]? = some memo := by
  have hlt := (Array.getElem?_eq_some_iff.mp hmemo).1
  cases request with
  | newGraph folds => exact hmemo
  | clear cleared => exact hmemo
  | newMemo =>
      change (s.memos.push Memo.empty)[index]? = some memo
      rw [Array.getElem?_push, if_neg hlt.ne, hmemo]
  | resetMemo reset =>
      change (s.memos.modify reset fun _ => Memo.empty)[index]? = some memo
      rw [Array.getElem?_modify, if_neg hspares, hmemo]
  | call used own call =>
      cases hg : s.graph? used with
      | none => rw [step_call_of_none hg, hmemo]
      | some g =>
          rw [step_call hg]
          cases own with
          | none => exact hmemo
          | some own =>
              have hne : own ≠ index := by
                rintro rfl
                obtain rfl := hspares rfl
                exact hother call rfl
              change (s.memos.setIfInBounds own _)[index]? = some memo
              rw [Array.getElem?_setIfInBounds_ne hne, hmemo]

/-- A request that spares a memo leaves it all it knows. -/
theorem Reachable.retains_step (hs : s.Reachable) (hg : s.graph? graph = some g)
    (hmemo : s.memos[index]? = some memo) (hw : Trusted ⟨g, memo⟩) {request : Request}
    (hspares : request.Spares graph index) :
    ∃ g' memo', (s.step request).2.graph? graph = some g' ∧
      (s.step request).2.memos[index]? = some memo' ∧ Retains ⟨g, memo⟩ ⟨g', memo'⟩ := by
  by_cases hown : ∃ call, request = .call graph (some index) call
  · obtain ⟨call, rfl⟩ := hown
    have hlt := (Array.getElem?_eq_some_iff.mp hmemo).1
    have hfor := memoFor_of_memo hmemo
    refine ⟨(endState call.run ⟨g, memo⟩).graph, (endState call.run ⟨g, memo⟩).memo, ?_, ?_, ?_⟩
    · rw [graph?_step_call hg, hfor]
    · rw [step_call hg, hfor]
      exact Array.getElem?_setIfInBounds_self_of_lt hlt
    · exact hw.retains_of_collects (call.run_trusted hw) (call.run_collects hw)
  · obtain ⟨g', hg', hstep⟩ := graph?_step hg request
    refine ⟨g', memo, hg', memo_step hmemo hspares fun call hcall => hown ⟨call, hcall⟩, ?_⟩
    rcases hstep with ⟨rfl, -⟩ | ⟨-, hext⟩
    · exact absurd rfl hspares
    · exact hw.retains_of_extends hext ((hs.step request).wellFormed.graph hg') rfl

theorem Reachable.retains_run (hs : s.Reachable) (hg : s.graph? graph = some g)
    (hmemo : s.memos[index]? = some memo) (hw : Trusted ⟨g, memo⟩) {requests : List Request}
    (hspares : ∀ request ∈ requests, request.Spares graph index) :
    ∃ g' memo', (s.run requests).graph? graph = some g' ∧
      (s.run requests).memos[index]? = some memo' ∧ Retains ⟨g, memo⟩ ⟨g', memo'⟩ := by
  induction requests generalizing s g memo with
  | nil => exact ⟨g, memo, hg, hmemo, hw.retains_refl⟩
  | cons request rest ih =>
      obtain ⟨hrequest, hrest⟩ := List.forall_mem_cons.mp hspares
      obtain ⟨g₁, memo₁, hg₁, hmemo₁, hretains⟩ := hs.retains_step hg hmemo hw hrequest
      obtain ⟨g', memo', hg', hmemo', hretains'⟩ :=
        ih (hs.step request) hg₁ hmemo₁ hretains.trusted hrest
      exact ⟨g', memo', hg', hmemo', hretains.trans hretains'⟩

/-- What a call leaves known is known after all that comes next, if that spares graph and memo. -/
theorem Reachable.retains_after (hs : s.Reachable) (hg : s.graph? graph = some g)
    (hindex : index < s.memos.size) {call : Call} {answer : Answer} {w : Workspace}
    (hcall : call.run ⟨g, s.memoFor (some index)⟩ = .ok answer w) (hw : w.Trusted)
    {between : List Request} (hspares : ∀ request ∈ between, request.Spares graph index) :
    let after := (s.step (.call graph (some index) call)).2.run between
    ∃ g', after.graph? graph = some g' ∧ w.Retains ⟨g', after.memoFor (some index)⟩ := by
  intro after
  have hg₁ := graph?_step_call hg (some index) call
  have hmemo₁ : (s.step (.call graph (some index) call)).2.memos[index]? = some w.memo := by
    rw [step_call hg, endState_of_ok hcall]
    exact Array.getElem?_setIfInBounds_self_of_lt hindex
  rw [endState_of_ok hcall] at hg₁
  obtain ⟨g', memo', hg', hmemo', hretains⟩ :=
    (hs.step _).retains_run hg₁ hmemo₁ hw hspares
  exact ⟨g', hg', memoFor_of_memo hmemo' ▸ hretains⟩

end Session

/-- A matrix is the part of another one at some of its rows and columns, which are named by the
handles they belong to. -/
structure Matrix.IsPart (part whole : Matrix Handle) (outs cols outputs vars : List Handle) :
    Prop where
  rows_eq : part.rows = outs.length
  cols_eq : part.cols = cols.length
  entry {i j r c : Nat} {out col : Handle} : outs[i]? = some out → outputs[r]? = some out →
    cols[j]? = some col → vars[c]? = some col →
    ∃ d, part.get? i j = some d ∧ whole.get? r c = some d

namespace Matrix

theorem isPart_table (outs cols outputs vars : List Handle) (entry : Handle → Handle → Handle) :
    IsPart (table outs cols entry) (table outputs vars entry) outs cols outputs vars where
  rows_eq := rfl
  cols_eq := rfl
  entry {i j r c out col} hout hrow hcol hplace := by
    obtain ⟨hi, rfl⟩ := List.getElem?_eq_some_iff.mp hout
    obtain ⟨hr, hsame⟩ := List.getElem?_eq_some_iff.mp hrow
    obtain ⟨hj, rfl⟩ := List.getElem?_eq_some_iff.mp hcol
    obtain ⟨hc, hsame'⟩ := List.getElem?_eq_some_iff.mp hplace
    refine ⟨entry outs[i] cols[j], get?_table hi hj, ?_⟩
    rw [get?_table hr hc, hsame, hsame']

/-- Columns of a table are chosen by the places of their variables. -/
theorem selectColumns_idxOf {outputs vars cols : List Handle} (hcols : ∀ col ∈ cols, col ∈ vars)
    (entry : Handle → Handle → Handle) :
    (table outputs vars entry).selectColumns (cols.map fun col => vars.idxOf col) =
      .ok (table outputs cols entry) := by
  refine selectColumns_table (List.forall₂_map_left_iff.mpr (List.forall₂_same.mpr ?_))
  intro col hcol
  have hlt := List.idxOf_lt_length_of_mem (hcols col hcol)
  rw [List.getElem?_eq_getElem hlt, List.getElem_idxOf hlt]

end Matrix

namespace DiffM

variable {w : Workspace} {outputs vars : List Handle} {columns : Option (List Handle)}

/-- A Jacobian that has been built has been asked for with usable handles. -/
theorem differentiable_of_jacobian {m : Matrix Handle} {w' : Workspace}
    (hrun : jacobian outputs vars columns w = .ok m w') :
    w.graph.Differentiable outputs vars (columns.getD []) := by
  by_contra hargs
  obtain ⟨e, hrefused⟩ := resolveColumns_refused columns hargs
  cases (bind_of_error hrefused).symm.trans hrun

/-- A gradient is the only row of a Jacobian. -/
theorem gradient_eq_row (hw : w.Trusted) (node : Handle) (slopes : List Handle) (w' : Workspace) :
    gradient node vars w = .ok slopes w' ↔
      ∃ m, jacobian [node] vars none w = .ok m w' ∧ m.row 0 = .ok slopes := by
  have hrow : ∀ m w', jacobian [node] vars none w = .ok m w' → m.row 0 = .ok m.toList := by
    intro m w' hrun
    obtain ⟨_, _, hrun', -, rfl, -⟩ := jacobian_recalls hw none (differentiable_of_jacobian hrun)
    cases hrun'.symm.trans hrun
    rw [Matrix.row_table, Matrix.toList_table]
  constructor
  · intro hrun
    obtain ⟨m, w₁, hm, hpure⟩ := exists_of_bind_ok hrun
    cases hpure
    exact ⟨m, hm, hrow m _ hm⟩
  · rintro ⟨m, hm, hslopes⟩
    obtain rfl := Except.ok.inj ((hrow m w' hm).symm.trans hslopes)
    exact bind_of_ok hm

/-- With a fresh memo a Jacobian that is given out is the same, and nothing is built. -/
theorem jacobian_fresh (hw : w.Trusted) {m : Matrix Handle}
    (hrun : jacobian outputs vars columns w = .ok m w) :
    ∃ memo, jacobian outputs vars columns ⟨w.graph, Memo.empty⟩ = .ok m ⟨w.graph, memo⟩ := by
  have hcall : (Call.jacobian outputs vars columns).run w = .ok (.matrix m) w := bind_of_ok hrun
  obtain ⟨memo, hfresh⟩ := Call.run_with_memo hw hcall (trusted_empty hw.ready.graph)
  obtain ⟨m', w', hm', hpure⟩ := exists_of_bind_ok hfresh
  cases hpure
  exact ⟨memo, hm'⟩

end DiffM

namespace Session

variable {graph index : Nat} {g : Graph}

/-- The contract of Jacobians in parts.  Take a Jacobian that has been built, and any later time up
to which its graph has not been cleared and its memo has not been emptied nor used with another
graph.  Asked for with some of its outputs and some of its columns, in any order, it is the part at
these rows and columns; neither graph nor memo change, and with a fresh memo the graph does not
change either.  Gradients are rows of Jacobians. -/
theorem InRange.jacobian_part {before : List Request} (hrange : InRange before)
    (hg : (start.run before).graph? graph = some g)
    (hindex : index < (start.run before).memos.size) {outputs vars : List Handle}
    {whole : Matrix Handle} {w : Workspace}
    (hwhole : DiffM.jacobian outputs vars none ⟨g, (start.run before).memoFor (some index)⟩ =
      .ok whole w) {between : List Request}
    (hspares : ∀ request ∈ between, request.Spares graph index) {outs cols : List Handle}
    (houts : ∀ out ∈ outs, out ∈ outputs) (hcols : ∀ col ∈ cols, col ∈ vars) :
    let after := start.run
      (before ++ .call graph (some index) (.jacobian outputs vars none) :: between)
    (∃ g' part, after.graph? graph = some g' ∧ part.IsPart whole outs cols outputs vars ∧
      DiffM.jacobian outs vars (some cols) ⟨g', after.memoFor (some index)⟩ =
        .ok part ⟨g', after.memoFor (some index)⟩ ∧
      (∃ memo, DiffM.jacobian outs vars (some cols) ⟨g', Memo.empty⟩ = .ok part ⟨g', memo⟩) ∧
      (outs = outputs → whole.selectColumns (cols.map fun col => vars.idxOf col) = .ok part)) ∧
    ∀ memo node vars slopes w',
      DiffM.gradient node vars ⟨g, (start.run before).memoFor memo⟩ = .ok slopes w' ↔
        ∃ m, DiffM.jacobian [node] vars none ⟨g, (start.run before).memoFor memo⟩ = .ok m w' ∧
          m.row 0 = .ok slopes := by
  intro after
  refine ⟨?_, fun memo node vars slopes w' =>
    DiffM.gradient_eq_row (hrange.trusted hg memo) node slopes w'⟩
  have hw := hrange.trusted hg (some index)
  have hargs := DiffM.differentiable_of_jacobian hwhole
  obtain ⟨_, _, hrun, hkeeps, rfl, hknown⟩ := DiffM.jacobian_recalls hw none hargs
  cases hrun.symm.trans hwhole
  have hretains := hkeeps hw
  have hcall : (Call.jacobian outputs vars none).run
      ⟨g, (start.run before).memoFor (some index)⟩ = .ok (.matrix _) w := bind_of_ok hwhole
  have hafter : after = Session.run
      ((start.run before).step (.call graph (some index) (.jacobian outputs vars none))).2
      between := run_append _ _ _
  obtain ⟨g', hg', hretains'⟩ :=
    Reachable.retains_after ⟨before, rfl⟩ hg hindex hcall hretains.trusted hspares
  rw [← hafter] at hg' hretains'
  -- the entries are known since the first call, so they are found and not built
  have hext := hretains.grown.trans hretains'.grown
  have hargs' : g'.Differentiable outs vars cols :=
    ⟨fun out hout => hext.live (hargs.live out (houts out hout)),
      fun var hvar => hext.isVariable (hargs.isVariable var hvar), hcols⟩
  have hpart := DiffM.jacobian_of_knows (w := ⟨g', after.memoFor (some index)⟩) (some cols) hargs'
    fun out hout col hcol => hretains'.knows (hknown out (houts out hout) col (hcols col hcol))
  refine ⟨g', _, hg', Matrix.isPart_table outs cols outputs vars _, hpart,
    DiffM.jacobian_fresh hretains'.trusted hpart, ?_⟩
  rintro rfl
  exact Matrix.selectColumns_idxOf hcols _

/-- The square of a variable, and a memo. -/
def squareWithMemo : List Request :=
  [.newGraph false, .call 0 none (.declare "x"),
    .call 0 none (.operation .mul [⟨0, 0, 1⟩, ⟨0, 0, 1⟩]), .newMemo]

/-- The rows of the square and of its variable are had afterwards in another order and twice, with
another variable and another memo in between. -/
theorem jacobian_part_square :
    InRange squareWithMemo ∧ (start.run squareWithMemo).graph? 0 = some squareGraph ∧
    0 < (start.run squareWithMemo).memos.size ∧
    ∃ whole w g' part, DiffM.jacobian [⟨1, 0, 1⟩, ⟨0, 0, 1⟩] [⟨0, 0, 1⟩] none
        ⟨squareGraph, (start.run squareWithMemo).memoFor (some 0)⟩ = .ok whole w ∧
      (start.run (squareWithMemo ++
        .call 0 (some 0) (.jacobian [⟨1, 0, 1⟩, ⟨0, 0, 1⟩] [⟨0, 0, 1⟩] none) ::
          [.call 0 none (.declare "y"), .newMemo, .resetMemo 1])).graph? 0 = some g' ∧
      part.rows = 3 ∧ part.cols = 1 ∧
      (∃ d, part.get? 2 0 = some d ∧ whole.get? 1 0 = some d) ∧
      ∃ memo, DiffM.jacobian [⟨0, 0, 1⟩, ⟨1, 0, 1⟩, ⟨0, 0, 1⟩] [⟨0, 0, 1⟩] (some [⟨0, 0, 1⟩])
        ⟨g', Memo.empty⟩ = .ok part ⟨g', memo⟩ := by
  have hrange : InRange squareWithMemo :=
    ⟨by decide, fun graph => lt_of_le_of_lt List.count_le_length (by decide)⟩
  have hargs : squareGraph.Differentiable [⟨1, 0, 1⟩, ⟨0, 0, 1⟩] [⟨0, 0, 1⟩] [] :=
    ⟨List.forall_mem_cons.mpr ⟨⟨_, rfl⟩, List.forall_mem_singleton.mpr ⟨_, rfl⟩⟩,
      List.forall_mem_singleton.mpr ⟨1, "x", rfl⟩, nofun⟩
  obtain ⟨whole, w, hwhole, -⟩ :=
    DiffM.jacobian_recalls (hrange.trusted graph?_square (some 0)) none hargs
  have hspares : ∀ request ∈ [Request.call 0 none (.declare "y"), .newMemo, .resetMemo 1],
      request.Spares 0 0 := by decide
  have houts : ∀ out ∈ ([⟨0, 0, 1⟩, ⟨1, 0, 1⟩, ⟨0, 0, 1⟩] : List Handle),
      out ∈ ([⟨1, 0, 1⟩, ⟨0, 0, 1⟩] : List Handle) := by decide
  have hcols : ∀ col ∈ ([⟨0, 0, 1⟩] : List Handle), col ∈ ([⟨0, 0, 1⟩] : List Handle) := by decide
  obtain ⟨⟨g', part, hg', hpart, -, hfresh, -⟩, -⟩ :=
    hrange.jacobian_part graph?_square (by decide) hwhole hspares houts hcols
  exact ⟨hrange, graph?_square, by decide, whole, w, g', part, hwhole, hg', hpart.rows_eq,
    hpart.cols_eq, hpart.entry rfl rfl rfl rfl, hfresh⟩

end Session

end ExprGraph
