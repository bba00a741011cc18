import Mathlib
import ExprGraph.Proofs.Derivative.Replay
import ExprGraph.Proofs.Derivative.Forward

/-!
# The memo does not show

An entry of a memo is the node that building it again would find.  So differentiation through a memo
does to the graph what the direct recursion does: the nodes it skips would change nothing, and it
passes the others in the order in which the recursion comes to them.
-/

namespace ExprGraph

open Workspace

open ExprGraph.Graph

/-- Every entry is found again when it is built again, and the operands of a node with a derivative
have theirs. -/
structure Memo.FaithfulIn (memo : Memo) (g : Graph) : Prop where
  derivatives {node var d : Handle} : memo.derivatives[(node, var)]? = some d →
    g.Live node ∧ g.Live d ∧ ∀ depth, g.placeOf node < depth →
      BuildM.Replays (BuildM.differentiateBelow var depth node) d g
  closed {node var a : Handle} : (node, var) ∈ memo.derivatives → a ∈ g.argsOf node →
    (a, var) ∈ memo.derivatives
  partials {node p : Handle} {index : Nat} : memo.partials[(node, index)]? = some p →
    ∃ app, g.node node = .ok (.app app) ∧
      BuildM.Replays ((app.op.partialBy index).build node app.args) p g

theorem Memo.FaithfulIn.of_extends {memo : Memo} {g g' : Graph} (hmemo : memo.FaithfulIn g)
    (hext : g.Extends g') : memo.FaithfulIn g' where
  derivatives hfound := by
    obtain ⟨hlive, hd, hreplays⟩ := hmemo.derivatives hfound
    refine ⟨hext.live hlive, hext.live hd, fun depth hdepth => ?_⟩
    rw [hext.placeOf_eq] at hdepth
    exact (hreplays depth hdepth).extends hext
  closed hknown ha := by
    obtain ⟨hlive, -⟩ := hmemo.derivatives (Std.HashMap.getElem?_eq_some_getElem hknown)
    rw [hext.argsOf_eq hlive] at ha
    exact hmemo.closed hknown ha
  partials hfound := by
    obtain ⟨app, hn, hp⟩ := hmemo.partials hfound
    exact ⟨app, hext.node_eq hn, hp.extends hext⟩

/-- The derivative of a node by a variable that a memo has. -/
def Memo.derivativeOf (memo : Memo) (var node : Handle) : Handle :=
  (memo.derivatives[(node, var)]?).getD node

theorem Memo.getElem?_derivatives {memo : Memo} {node var : Handle}
    (hknown : (node, var) ∈ memo.derivatives) :
    memo.derivatives[(node, var)]? = some (memo.derivativeOf var node) := by
  rw [derivativeOf, Std.HashMap.getElem?_eq_some_getElem hknown, Option.getD_some]

/-- What is left of an outcome when the memo is forgotten. -/
def withoutMemo {α : Type} :
    EStateM.Result Failure Workspace α → EStateM.Result Failure Graph α
  | .ok a w => .ok a w.graph
  | .error e w => .error e w.graph

namespace Workspace

/-- The memo is one of the graph as it is, and its entries are those that would be built. -/
structure Synced (w : Workspace) : Prop where
  graph : w.graph.WellFormed
  current : w.Current
  memo : w.memo.FaithfulIn w.graph

/-- The graph is well-formed, and if the memo is its own, it does not show. -/
structure Honest (w : Workspace) : Prop where
  graph : w.graph.WellFormed
  memo : w.Current → w.memo.FaithfulIn w.graph

/-- The workspace is ready, and its memo does not show. -/
structure Trusted (w : Workspace) : Prop where
  ready : w.Ready
  honest : w.Honest

/-- The graph has grown, and at most local partials have been added to its memo. -/
structure Swept (w w' : Workspace) : Prop where
  synced : w'.Synced
  grows : w.graph.Grows w'.graph
  derivatives : w'.memo.derivatives = w.memo.derivatives

variable {w w' w'' : Workspace}

theorem Synced.swept_refl (hw : w.Synced) : w.Swept w := ⟨hw, refl w.graph, rfl⟩

theorem Swept.trans (hfirst : w.Swept w') (hrest : w'.Swept w'') : w.Swept w'' where
  synced := hrest.synced
  grows := hfirst.grows.trans hrest.grows
  derivatives := hrest.derivatives.trans hfirst.derivatives

/-- Growth of the graph alone keeps a workspace in step. -/
theorem Synced.swept_grows (hw : w.Synced) (hgrows : w.graph.Grows w'.graph)
    (hmemo : w'.memo = w.memo) : w.Swept w' where
  synced := by
    refine ⟨hw.graph.grows hgrows, current_of_grows hw.current hgrows hmemo, ?_⟩
    rw [hmemo]
    exact hw.memo.of_extends hgrows.extends
  grows := hgrows
  derivatives := by rw [hmemo]

theorem Synced.honest (hw : w.Synced) : w.Honest :=
  ⟨hw.graph, fun _ => hw.memo⟩

theorem Synced.replays (hw : w.Synced) {node var : Handle}
    (hknown : (node, var) ∈ w.memo.derivatives) {depth : Nat}
    (hdepth : w.graph.placeOf node < depth) :
    BuildM.Replays (BuildM.differentiateBelow var depth node) (w.memo.derivativeOf var node)
      w.graph :=
  (hw.memo.derivatives (Memo.getElem?_derivatives hknown)).2.2 depth hdepth

end Workspace

namespace DiffM

variable {α β : Type} {w : Workspace}

theorem withoutMemo_onGraph (work : BuildM α) (w : Workspace) :
    withoutMemo (onGraph work w) = work w.graph := by
  cases hrun : work w.graph with
  | ok a graph' => rw [onGraph_of_ok hrun]; exact rfl
  | error e graph' => rw [onGraph_of_error hrun]; exact rfl

/-- The work does to the graph what work without a memo does. -/
structure Mirrors (x : DiffM α) (work : BuildM α) (w : Workspace) : Prop where
  outcome : withoutMemo (x w) = work w.graph
  swept : w.Swept (endState x w)

namespace Mirrors

theorem pure (hw : w.Synced) (a : α) : Mirrors (Pure.pure a) (Pure.pure a) w :=
  ⟨rfl, hw.swept_refl⟩

theorem onGraph (hw : w.Synced) {work : BuildM α} (hkeeps : Keeps Graph.Grows work) :
    Mirrors (DiffM.onGraph work) work w where
  outcome := withoutMemo_onGraph work w
  swept := by
    rw [endState_onGraph]
    exact hw.swept_grows (hkeeps w.graph) rfl

theorem isZero (hw : w.Synced) (h : Handle) : Mirrors (DiffM.isZero h) (BuildM.isZero h) w :=
  ⟨rfl, hw.swept_refl⟩

theorem bind {x : DiffM α} {work : BuildM α} {f : α → DiffM β} {rest : α → BuildM β}
    (hx : Mirrors x work w)
    (hf : ∀ a w', w.Swept w' → Mirrors (f a) (rest a) w') :
    Mirrors (x >>= f) (work >>= rest) w := by
  obtain ⟨houtcome, hswept⟩ := hx
  cases hrun : x w with
  | ok a w' =>
      rw [hrun] at houtcome
      rw [endState_of_ok hrun] at hswept
      obtain ⟨houtcome', hswept'⟩ := hf a w' hswept
      have hbind : (x >>= f) w = f a w' := bind_of_ok hrun
      refine ⟨?_, ?_⟩
      · rw [hbind, houtcome']
        exact (bind_of_ok houtcome.symm).symm
      · rw [endState, hbind]
        exact hswept.trans hswept'
  | error e w' =>
      rw [hrun] at houtcome
      rw [endState_of_error hrun] at hswept
      refine ⟨?_, ?_⟩
      · rw [bind_of_error hrun]
        exact (bind_of_error houtcome.symm).symm
      · rw [endState_of_error (bind_of_error hrun)]
        exact hswept

end Mirrors

/-- A local partial that is known is the one that would be built. -/
theorem partialOf_mirrors {node : Handle} {app : Application} (hw : w.Synced)
    (hn : w.graph.node node = .ok (.app app)) (index : Nat) :
    Mirrors (partialOf node app index) ((app.op.partialBy index).build node app.args) w := by
  have hread : consult (fun w => .ok w.memo.partials[(node, index)]?) w =
      .ok w.memo.partials[(node, index)]? w := rfl
  cases hfound : w.memo.partials[(node, index)]? with
  | some p =>
      obtain ⟨app', hn', hp⟩ := hw.memo.partials hfound
      cases hn.symm.trans hn'
      have hrun : partialOf node app index w = .ok p w := by
        rw [partialOf, bind_of_ok hread, hfound]
        rfl
      refine ⟨?_, ?_⟩
      · rw [hrun]
        exact (hp w.graph hw.graph (.refl _)).symm
      · rw [endState_of_ok hrun]
        exact hw.swept_refl
  | none =>
      have hmirror := Mirrors.onGraph hw
        (BuildM.formula_keeps node app.args (app.op.partialBy index))
      have hstep : partialOf node app index w = (do
          let p ← onGraph ((app.op.partialBy index).build node app.args)
          record fun memo => { memo with partials := memo.partials.insert (node, index) p }
          pure p : DiffM Handle) w := by
        rw [partialOf, bind_of_ok hread, hfound]
      obtain ⟨houtcome, hswept⟩ := hmirror
      cases hbuilt : onGraph ((app.op.partialBy index).build node app.args) w with
      | error e w' =>
          rw [hbuilt] at houtcome
          rw [endState_of_error hbuilt] at hswept
          rw [bind_of_error hbuilt] at hstep
          refine ⟨?_, ?_⟩
          · rw [hstep]
            exact houtcome
          · rw [endState_of_error hstep]
            exact hswept
      | ok p w' =>
          rw [hbuilt] at houtcome
          rw [endState_of_ok hbuilt] at hswept
          rw [bind_of_ok hbuilt] at hstep
          have hsettled := (BuildM.formula_settles (app.op.partialBy index) hw.graph ⟨_, hn⟩
            fun a ha => hw.graph.live hn ha) p w'.graph houtcome.symm
          refine ⟨?_, ?_⟩
          · rw [hstep]
            exact houtcome
          · rw [endState_of_ok hstep]
            refine ⟨⟨hswept.synced.graph, hswept.synced.current, ?_⟩, hswept.grows,
              hswept.derivatives⟩
            refine ⟨hswept.synced.memo.derivatives, hswept.synced.memo.closed, ?_⟩
            intro node' p' index' hfound'
            change (w'.memo.partials.insert (node, index) p)[(node', index')]? = some p' at hfound'
            rw [Std.HashMap.getElem?_insert] at hfound'
            split at hfound'
            · next hkey =>
              cases eq_of_beq hkey
              cases hfound'
              exact ⟨app, hswept.grows.extends.node_eq hn, hsettled.2.2⟩
            · exact hswept.synced.memo.partials hfound'

/-- The chain rule through a memo does what it does without one. -/
theorem chainFrom_mirrors {node : Handle} {app : Application} {index : Nat}
    {tangents : List Handle} {total : Option Handle} (hw : w.Synced)
    (hn : w.graph.node node = .ok (.app app)) :
    Mirrors (chainFrom node app index tangents total)
      (BuildM.combine node app index tangents total) w := by
  induction tangents generalizing w index total with
  | nil =>
      cases total with
      | none => exact .onGraph hw (BuildM.literal_keeps 0.0)
      | some total => exact .pure hw total
  | cons tangent rest ih =>
      have hnext : ∀ {w' : Workspace} {total : Option Handle}, w.Swept w' →
          Mirrors (chainFrom node app (index + 1) rest total)
            (BuildM.combine node app (index + 1) rest total) w' :=
        fun hswept => ih hswept.synced (hswept.grows.extends.node_eq hn)
      rw [chainFrom, BuildM.combine]
      refine .bind (.isZero hw tangent) fun zeroTangent w₁ hswept₁ => ?_
      split
      · exact hnext hswept₁
      refine .bind (partialOf_mirrors hswept₁.synced (hswept₁.grows.extends.node_eq hn) index)
        fun p w₂ hswept₂ => .bind (.isZero hswept₂.synced p) fun zeroPartial w₃ hswept₃ => ?_
      have hlater := (hswept₁.trans hswept₂).trans hswept₃
      split
      · exact hnext hlater
      refine .bind (.onGraph hswept₃.synced (BuildM.operation_keeps .mul [p, tangent]))
        fun term w₄ hswept₄ => ?_
      cases total with
      | none =>
          exact .bind (.pure hswept₄.synced term) fun total w₅ hswept₅ =>
            hnext (hlater.trans (hswept₄.trans hswept₅))
      | some before =>
          exact .bind (.onGraph hswept₄.synced (BuildM.operation_keeps .add [before, term]))
            fun total w₅ hswept₅ => hnext (hlater.trans (hswept₄.trans hswept₅))

/-- A kept derivative is found. -/
theorem known_of_mem {node var : Handle} (hknown : (node, var) ∈ w.memo.derivatives) :
    known node var w = .ok (w.memo.derivativeOf var node) w := by
  apply consult_eq
  rw [Memo.getElem?_derivatives hknown]

/-- The derivatives of the operands of a node are found. -/
theorem mapM_known {var : Handle} {args : List Handle}
    (hknown : ∀ a ∈ args, (a, var) ∈ w.memo.derivatives) :
    args.mapM (fun a => known a var) w = .ok (args.map (w.memo.derivativeOf var)) w := by
  induction args with
  | nil => rfl
  | cons a rest ih =>
      obtain ⟨hhead, hrest⟩ := List.forall_mem_cons.mp hknown
      rw [List.mapM_cons, bind_of_ok (known_of_mem hhead), bind_of_ok (ih hrest)]
      rfl

/-- What is kept of a node is what the direct recursion makes of it. -/
theorem differentiate_eq {var node : Handle} {n : Node} (hw : w.Synced)
    (hn : w.graph.node node = .ok n) (hknown : ∀ a ∈ n.args, (a, var) ∈ w.memo.derivatives) :
    ∃ x : DiffM Handle, differentiate var node w = (x >>= keep node var) w ∧
      Mirrors x (BuildM.differentiateWith var node n (n.args.map (w.memo.derivativeOf var))) w := by
  have hread : inspect (fun g => g.node node) w = .ok n w := inspect_eq hn
  cases n with
  | var id name =>
      refine ⟨literal (if node = var then 1.0 else 0.0), ?_, .onGraph hw (BuildM.literal_keeps _)⟩
      rw [differentiate, bind_of_ok hread]
  | lit v =>
      refine ⟨literal 0.0, ?_, .onGraph hw (BuildM.literal_keeps _)⟩
      rw [differentiate, bind_of_ok hread]
  | app app =>
      refine ⟨chain node app (app.args.map (w.memo.derivativeOf var)), ?_, chainFrom_mirrors hw hn⟩
      rw [differentiate, bind_of_ok hread]
      exact bind_of_ok (mapM_known hknown)

/-- A node whose operands have been differentiated gets the derivative that the direct recursion
finds for it. -/
theorem differentiate_direct {var node : Handle} {n : Node} {w' : Workspace} (hw : w.Synced)
    (hn : w.graph.node node = .ok n) (hknown : ∀ a ∈ n.args, (a, var) ∈ w.memo.derivatives)
    (hrun : differentiate var node w = .ok () w') :
    ∃ d, BuildM.differentiateWith var node n (n.args.map (w.memo.derivativeOf var)) w.graph =
        .ok d w'.graph ∧
      w'.memo.derivatives = w.memo.derivatives.insert (node, var) d ∧ w'.Synced ∧
      w.graph.Grows w'.graph := by
  obtain ⟨x, hx, houtcome, hswept⟩ := differentiate_eq hw hn hknown
  obtain ⟨d, w₁, hbuilt, hkept⟩ := exists_of_bind_ok (hx.symm.trans hrun)
  rw [hbuilt] at houtcome
  rw [endState_of_ok hbuilt] at hswept
  cases hkept
  have hext := hswept.grows.extends
  have htangents : ∀ t ∈ n.args.map (w.memo.derivativeOf var), w.graph.Live t := by
    intro t ht
    obtain ⟨a, ha, rfl⟩ := List.mem_map.mp ht
    exact (hw.memo.derivatives (Memo.getElem?_derivatives (hknown a ha))).2.1
  obtain ⟨hlive, hreplays⟩ :=
    (BuildM.differentiateWith_settles hw.graph hn htangents d w₁.graph houtcome.symm).2
  have hearlier : ∀ a ∈ n.args, w.graph.placeOf a < w.graph.placeOf node := by
    intro a ha
    rw [← argsOf_of_node hn] at ha
    exact hw.graph.placeOf_lt_of_mem_argsOf ha
  refine ⟨d, houtcome.symm, ?_, ⟨hswept.synced.graph, hswept.synced.current, ?_, ?_,
    hswept.synced.memo.partials⟩, hswept.grows⟩
  · change w₁.memo.derivatives.insert (node, var) d = _
    rw [hswept.derivatives]
  · intro node' var' d' hfound
    change (w₁.memo.derivatives.insert (node, var) d)[(node', var')]? = some d' at hfound
    rw [Std.HashMap.getElem?_insert] at hfound
    split at hfound
    · next hkey =>
      cases eq_of_beq hkey
      cases hfound
      refine ⟨hext.live ⟨n, hn⟩, hlive, fun depth hdepth g' hg' hext' => ?_⟩
      obtain ⟨depth, rfl⟩ := Nat.exists_eq_succ_of_ne_zero (Nat.ne_zero_of_lt hdepth)
      change w₁.graph.placeOf node < depth + 1 at hdepth
      rw [hext.placeOf_eq] at hdepth
      have hargs : BuildM.Replays (n.args.mapM (BuildM.differentiateBelow var depth))
          (n.args.map (w.memo.derivativeOf var)) w.graph :=
        BuildM.mapM_replays fun a ha =>
          hw.replays (hknown a ha) (lt_of_lt_of_le (hearlier a ha) (Nat.le_of_lt_succ hdepth))
      change BuildM.differentiateBelow var (depth + 1) node g' = .ok d g'
      rw [BuildM.differentiateBelow_succ (hext'.node_eq (hext.node_eq hn))]
      exact (hargs.extends hext).bind hreplays g' hg' hext'
    · exact hswept.synced.memo.derivatives hfound
  · intro node' var' a hmem ha
    change (node', var') ∈ w₁.memo.derivatives.insert (node, var) d at hmem
    change (a, var') ∈ w₁.memo.derivatives.insert (node, var) d
    refine Std.HashMap.mem_insert.mpr (.inr ?_)
    rcases Std.HashMap.mem_insert.mp hmem with hkey | hold
    · cases eq_of_beq hkey
      have ha' : a ∈ w₁.graph.argsOf node := ha
      rw [hext.argsOf_eq ⟨n, hn⟩, argsOf_of_node hn] at ha'
      rw [hswept.derivatives]
      exact hknown a ha'
    · exact hswept.synced.memo.closed hold ha

end DiffM

end ExprGraph
