import Mathlib
import ExprGraph.Proofs.Derivative.Faithful

/-!
# Differentiation through a memo is the direct recursion

The nodes whose derivative is not known are passed in an order with operands first.  That is the
order in which the direct recursion comes to them for the first time, and at every other time it
finds what it has built before.  So both end with the same node and the same graph.
-/

namespace ExprGraph

open Workspace

open ExprGraph.Graph

/-- The derivatives of some nodes by a variable have been built and kept, and no others. -/
structure Workspace.Differentiates (var : Handle) (nodes : List Handle) (w w' : Workspace) :
    Prop where
  ready : w'.Ready
  synced : w'.Synced
  grows : w.graph.Grows w'.graph
  mem_iff {node x : Handle} : (node, x) ∈ w'.memo.derivatives ↔
    (node, x) ∈ w.memo.derivatives ∨ x = var ∧ node ∈ nodes

namespace Workspace.Differentiates

variable {var : Handle} {nodes others : List Handle} {w w' w'' : Workspace}

theorem nil (hready : w.Ready) (hw : w.Synced) : w.Differentiates var [] w :=
  ⟨hready, hw, refl w.graph, by simp⟩

theorem append (hfirst : w.Differentiates var nodes w')
    (hrest : w'.Differentiates var others w'') : w.Differentiates var (nodes ++ others) w'' where
  ready := hrest.ready
  synced := hrest.synced
  grows := hfirst.grows.trans hrest.grows
  mem_iff := by
    intro node x
    rw [hrest.mem_iff, hfirst.mem_iff, List.mem_append]
    tauto

/-- What was known stays known. -/
theorem mem_of_mem (hd : w.Differentiates var nodes w') {key : Handle × Handle}
    (hkey : key ∈ w.memo.derivatives) : key ∈ w'.memo.derivatives :=
  hd.mem_iff.mpr (.inl hkey)

/-- What was known stays what it was: both replay the same recursion. -/
theorem derivativeOf_eq (hd : w.Differentiates var nodes w') (hw : w.Synced) {node : Handle}
    (hknown : (node, var) ∈ w.memo.derivatives) :
    w'.memo.derivativeOf var node = w.memo.derivativeOf var node := by
  have hbefore := (hw.replays hknown (Nat.lt_succ_self _)).extends hd.grows.extends
  have hnow := hd.synced.replays (hd.mem_of_mem hknown)
    (Nat.lt_succ_self (w'.graph.placeOf node))
  rw [hd.grows.extends.placeOf_eq] at hnow
  exact hnow.eq hbefore hd.synced.graph

end Workspace.Differentiates

namespace DiffM

variable {var : Handle} {w : Workspace}

/-- One node is differentiated as the direct recursion does it, once its operands are known. -/
theorem differentiate_differentiates {node : Handle} {n : Node} (hready : w.Ready)
    (hw : w.Synced) (hn : w.graph.node node = .ok n)
    (hknown : ∀ a ∈ n.args, (a, var) ∈ w.memo.derivatives) :
    ∃ w', differentiate var node w = .ok () w' ∧ w.Differentiates var [node] w' ∧
      BuildM.differentiateWith var node n (n.args.map (w.memo.derivativeOf var)) w.graph =
        .ok (w'.memo.derivativeOf var node) w'.graph := by
  obtain ⟨⟨⟩, w', hrun, hadv, -⟩ := differentiate_succeeds hready hw.current ⟨n, hn⟩
    ((argsOf_of_node hn).symm ▸ hknown)
  obtain ⟨d, hbuilt, htable, hsynced, hgrows⟩ := differentiate_direct hw hn hknown hrun
  have hd : w'.memo.derivativeOf var node = d := by
    rw [Memo.derivativeOf, htable, Std.HashMap.getElem?_insert_self, Option.getD_some]
  refine ⟨w', hrun, ⟨(hadv hready).ready, hsynced, hgrows, fun {node' x} => ?_⟩, ?_⟩
  · rw [htable, Std.HashMap.mem_insert, beq_iff_eq, Prod.mk.injEq, List.mem_singleton, or_comm,
      eq_comm (a := node), eq_comm (a := var), and_comm]
  · rw [hd]
    exact hbuilt

/-- An operand that a visit does not enter is known: it is skipped, or it has been presented. -/
theorem known_of_not_fresh {skip : Handle → Bool} {presented : List Handle}
    (hskip : ∀ a, skip a = true → (a, var) ∈ w.memo.derivatives)
    (hpresented : ∀ a ∈ presented, (a, var) ∈ w.memo.derivatives) {a : Handle}
    (hfresh : (!presented.contains a && !skip a) = false) : (a, var) ∈ w.memo.derivatives := by
  by_cases hskipped : skip a = true
  · exact hskip a hskipped
  · exact hpresented a (by simpa [hskipped] using hfresh)

/-- Once the operands that are fresh have been presented and differentiated, all of them are
known. -/
theorem known_of_presents {g : Graph} {skip : Handle → Bool} {operands presented new : List Handle}
    {w' : Workspace}
    (hbelow : g.Presents skip (operands.filter fun a => !presented.contains a && !skip a) presented
      (presented ++ new))
    (hdiff : w.Differentiates var new w')
    (hskip : ∀ a, skip a = true → (a, var) ∈ w.memo.derivatives)
    (hpresented : ∀ a ∈ presented, (a, var) ∈ w.memo.derivatives) :
    ∀ a ∈ operands, (a, var) ∈ w'.memo.derivatives := by
  intro a ha
  cases hfresh : !presented.contains a && !skip a with
  | false => exact hdiff.mem_of_mem (known_of_not_fresh hskip hpresented hfresh)
  | true =>
      have hmem := hbelow.mem_of_mem a (List.mem_filter.mpr ⟨ha, hfresh⟩)
      rcases List.mem_append.mp hmem with hbefore | hnow
      · exact hdiff.mem_of_mem (hpresented a hbefore)
      · exact hdiff.mem_iff.mpr (.inr ⟨rfl, hnow⟩)

/-- The direct recursion builds the derivatives of the fresh operands and finds all others. -/
theorem mapM_operands_direct {w' : Workspace} {fresh : Handle → Bool} {operands new : List Handle}
    {depth : Nat} (hw : w.Synced) (hdiff : w.Differentiates var new w')
    (hknown : ∀ a, fresh a = false → (a, var) ∈ w.memo.derivatives)
    (hplace : ∀ a ∈ operands, w.graph.placeOf a < depth)
    (hdirect : (operands.filter fresh).mapM (BuildM.differentiateBelow var depth) w.graph =
      .ok ((operands.filter fresh).map (w'.memo.derivativeOf var)) w'.graph) :
    operands.mapM (BuildM.differentiateBelow var depth) w.graph =
      .ok (operands.map (w'.memo.derivativeOf var)) w'.graph := by
  refine BuildM.mapM_of_filter (BuildM.differentiateBelow_keeps var depth) hw.graph
    (fun a ha hfresh => ?_) hdirect
  rw [hdiff.derivativeOf_eq hw (hknown a hfresh)]
  exact hw.replays (hknown a hfresh) (hplace a ha)

/-- Passing the nodes that a recursion presents does to the graph what differentiating its roots by
direct recursion does. -/
theorem forM_differentiate_eq {g : Graph} {skip : Handle → Bool}
    {roots presented result : List Handle} (hp : g.Presents skip roots presented result)
    (hg : g.WellFormed) (hready : w.Ready) (hw : w.Synced) (hgrows : g.Grows w.graph)
    (hskip : ∀ a, skip a = true → (a, var) ∈ w.memo.derivatives)
    (hpresented : ∀ a ∈ presented, (a, var) ∈ w.memo.derivatives) :
    ∃ new w', result = presented ++ new ∧ new.forM (differentiate var) w = .ok () w' ∧
      w.Differentiates var new w' ∧
      ∀ depth, (∀ root ∈ roots, g.placeOf root < depth) →
        roots.mapM (BuildM.differentiateBelow var depth) w.graph =
          .ok (roots.map (w'.memo.derivativeOf var)) w'.graph := by
  induction hp generalizing w with
  | nil presented =>
      exact ⟨[], w, (List.append_nil _).symm, rfl, .nil hready hw, fun _ _ => rfl⟩
  | @known root rest presented result hroot hrest ih =>
      obtain ⟨new, w', hresult, hrun, hdiff, hdirect⟩ := ih hready hw hgrows hskip hpresented
      refine ⟨new, w', hresult, hrun, hdiff, fun depth hdepth => ?_⟩
      obtain ⟨hhead, hrest⟩ := List.forall_mem_cons.mp hdepth
      have hknown := hpresented root hroot
      have hfound : BuildM.differentiateBelow var depth root w.graph =
          .ok (w.memo.derivativeOf var root) w.graph :=
        hw.replays hknown (hgrows.extends.placeOf_eq root ▸ hhead) w.graph hw.graph (.refl _)
      rw [List.mapM_cons, bind_of_ok hfound, bind_of_ok (hdirect depth hrest), List.map_cons,
        hdiff.derivativeOf_eq hw hknown]
      rfl
  | @visit root rest presented below result hlive hnew hbelow hrest ihbelow ihrest =>
      obtain ⟨n, hn⟩ := hlive
      obtain ⟨newBelow, w₁, rfl, hrun₁, hdiff₁, hdirect₁⟩ :=
        ihbelow hready hw hgrows hskip hpresented
      have hgrows₁ := hgrows.trans hdiff₁.grows
      have hargs := known_of_presents hbelow hdiff₁ hskip hpresented
      rw [argsOf_of_node hn] at hargs
      obtain ⟨w₂, hrun₂, hdiff₂, hdirect₂⟩ := differentiate_differentiates hdiff₁.ready
        hdiff₁.synced (hgrows₁.extends.node_eq hn) hargs
      have hboth := hdiff₁.append hdiff₂
      obtain ⟨newRest, w₃, rfl, hrun₃, hdiff₃, hdirect₃⟩ := ihrest hdiff₂.ready hdiff₂.synced
        (hgrows₁.trans hdiff₂.grows) (fun a ha => hboth.mem_of_mem (hskip a ha)) (by
          intro a ha
          rw [List.append_assoc] at ha
          rcases List.mem_append.mp ha with hbefore | hnow
          · exact hboth.mem_of_mem (hpresented a hbefore)
          · exact hboth.mem_iff.mpr (.inr ⟨rfl, hnow⟩))
      refine ⟨newBelow ++ [root] ++ newRest, w₃, by simp, ?_, hboth.append hdiff₃,
        fun depth hdepth => ?_⟩
      · have hself : [root].forM (differentiate var) w₁ = .ok () w₂ := bind_of_ok hrun₂
        exact forM_append_of_ok (forM_append_of_ok hrun₁ hself) hrun₃
      obtain ⟨hhead, hrest⟩ := List.forall_mem_cons.mp hdepth
      obtain ⟨depth, rfl⟩ := Nat.exists_eq_succ_of_ne_zero (Nat.ne_zero_of_lt hhead)
      have hplace : ∀ a ∈ g.argsOf root, g.placeOf a < depth := fun a ha =>
        lt_of_lt_of_le (hg.placeOf_lt_of_mem_argsOf ha) (Nat.le_of_lt_succ hhead)
      have htangents := mapM_operands_direct hw hdiff₁
        (fun _ => known_of_not_fresh hskip hpresented)
        (fun a ha => (hgrows.extends.placeOf_eq a).symm ▸ hplace a ha)
        (hdirect₁ depth fun a ha => hplace a (List.mem_of_mem_filter ha))
      rw [argsOf_of_node hn] at htangents
      have hroot : BuildM.differentiateBelow var (depth + 1) root w.graph =
          .ok (w₂.memo.derivativeOf var root) w₂.graph := by
        rw [BuildM.differentiateBelow_succ (hgrows.extends.node_eq hn), bind_of_ok htangents,
          hdirect₂]
      have hself : (root, var) ∈ w₂.memo.derivatives :=
        hdiff₂.mem_iff.mpr (.inr ⟨rfl, List.mem_singleton_self root⟩)
      rw [List.mapM_cons, bind_of_ok hroot, bind_of_ok (hdirect₃ (depth + 1) hrest), List.map_cons,
        hdiff₃.derivativeOf_eq hdiff₂.synced hself]
      rfl

end DiffM

/-- What lies below a node that has been differentiated has been differentiated. -/
theorem Memo.FaithfulIn.mem_of_reaches {memo : Memo} {g : Graph} (hmemo : memo.FaithfulIn g)
    {node m var : Handle} (hreach : g.Reaches node m) (hknown : (node, var) ∈ memo.derivatives) :
    (m, var) ∈ memo.derivatives := by
  induction hreach with
  | refl => exact hknown
  | step ha _ ih => exact ih (hmemo.closed hknown ha)

namespace DiffM

variable {w : Workspace} {node var : Handle}

/-- Afterwards the memo is one of the graph, with the entries it had if it was one before. -/
theorem sync_synced (hw : w.Honest) :
    ∃ w', sync w = .ok () w' ∧ w'.Synced ∧ w'.graph = w.graph ∧
      ∀ key, key ∈ w'.memo.derivatives ↔ w.Current ∧ key ∈ w.memo.derivatives := by
  have hrun : sync w = .ok () ⟨w.graph, w.memo.sync w.graph.generation⟩ := rfl
  by_cases hcurrent : w.Current
  · have hsame : w.memo.sync w.graph.generation = w.memo := if_pos hcurrent
    rw [hsame] at hrun
    exact ⟨w, hrun, ⟨hw.graph, hcurrent, hw.memo hcurrent⟩, rfl, fun key =>
      ⟨fun hkey => ⟨hcurrent, hkey⟩, fun hkey => hkey.2⟩⟩
  · have hfresh : w.memo.sync w.graph.generation = { generation := some w.graph.generation } :=
      if_neg hcurrent
    rw [hfresh] at hrun
    refine ⟨_, hrun, ⟨hw.graph, rfl, ?_⟩, rfl, fun key => ⟨fun hkey => by simp at hkey,
      fun hkey => absurd hkey.1 hcurrent⟩⟩
    exact ⟨fun hfound => by simp at hfound, fun hkey => by simp at hkey,
      fun hfound => by simp at hfound⟩

/-- Passing the nodes that are pending differentiates a node as the direct recursion does, and
nothing but what lies below it. -/
theorem pending_differentiates (var : Handle) (hready : w.Ready) (hw : w.Synced)
    (hlive : w.graph.Live node) :
    ∃ order w', pendingFor node var w = .ok order w ∧
      order.forM (differentiate var) w = .ok () w' ∧ w.Differentiates var order w' ∧
      node ∈ order ∧ (∀ m ∈ order, w.graph.Reaches node m) ∧
      ∀ depth, w.graph.placeOf node < depth → BuildM.differentiateBelow var depth node w.graph =
        .ok (w'.memo.derivativeOf var node) w'.graph := by
  have hroot : ∀ root ∈ [node], w.graph.Live root := by simpa using hlive
  obtain ⟨order, hpending, hpresents⟩ := hw.graph.orderSkipping_presents
    (fun a => w.memo.derivatives.contains (a, var)) hroot
  obtain ⟨new, w', rfl, hpass, hdiff, hbuilt⟩ := forM_differentiate_eq hpresents hw.graph hready hw
    (refl w.graph) (fun a ha => by simpa using ha) (by simp)
  refine ⟨order, w', consult_eq hpending, hpass, hdiff,
    hpresents.mem_of_mem node List.mem_cons_self, fun m hm => ?_, fun depth hdepth => ?_⟩
  · obtain ⟨root, hroot, hreach⟩ := (hpresents.isOrder hw.graph).reached hm
    rwa [List.mem_singleton.mp hroot] at hreach
  · have hone := hbuilt depth (by simpa using hdepth)
    rw [List.mapM_cons] at hone
    obtain ⟨d, g', hd, hpure⟩ := exists_of_bind_ok hone
    cases hpure
    exact hd

/-- The derivative of a live node by a variable is the node that the direct recursion builds, in the
same graph, and what has been differentiated are the nodes below. -/
theorem derivative_direct (hw : w.Trusted) (hlive : w.graph.Live node)
    (hvar : w.graph.IsVariable var) :
    ∃ d w', derivative node var w = .ok d w' ∧
      (∀ depth, w.graph.placeOf node < depth →
        BuildM.differentiateBelow var depth node w.graph = .ok d w'.graph) ∧
      w'.Ready ∧ w'.Synced ∧ w.graph.Grows w'.graph ∧
      ∀ m x, (m, x) ∈ w'.memo.derivatives ↔
        (w.Current ∧ (m, x) ∈ w.memo.derivatives) ∨ x = var ∧ w.graph.Reaches node m := by
  have hvalid : w.graph.validate [node, var] = .ok () :=
    validate_eq_ok_iff.mpr (by simpa using ⟨hlive, hvar.live⟩)
  have hvars : w.graph.expectVariables [var] = .ok () :=
    expectVariables_eq_ok_iff.mpr (by simpa using hvar)
  obtain ⟨w₁, hsync, hsynced₁, hgraph, hkeys⟩ := sync_synced hw.honest
  have hready₁ : w₁.Ready := by
    have hadv := (sync_succeeds (w := w)).endState_related
    rw [endState_of_ok hsync] at hadv
    exact (hadv hw.ready).ready
  have hread : consult (fun w => .ok w.memo.derivatives[(node, var)]?) w₁ =
      .ok w₁.memo.derivatives[(node, var)]? w₁ := rfl
  rw [← hgraph] at hlive ⊢
  by_cases hknown : (node, var) ∈ w₁.memo.derivatives
  · refine ⟨w₁.memo.derivativeOf var node, w₁, ?_, fun depth hdepth => ?_, hready₁, hsynced₁,
      refl w₁.graph, fun m x => ?_⟩
    · rw [derivative, bind_of_ok (inspect_eq hvalid), bind_of_ok (inspect_eq hvars),
        bind_of_ok hsync, bind_of_ok hread, Memo.getElem?_derivatives hknown]
      exact rfl
    · exact hsynced₁.replays hknown hdepth w₁.graph hsynced₁.graph (.refl _)
    · rw [← hkeys, iff_self_or]
      rintro ⟨rfl, hreach⟩
      exact hsynced₁.memo.mem_of_reaches hreach hknown
  · obtain ⟨order, w₂, hpending, hpass, hdiff, hmem, hbelow, hdirect⟩ :=
      pending_differentiates var hready₁ hsynced₁ hlive
    have hself : (node, var) ∈ w₂.memo.derivatives := hdiff.mem_iff.mpr (.inr ⟨rfl, hmem⟩)
    refine ⟨w₂.memo.derivativeOf var node, w₂, ?_, hdirect, hdiff.ready, hdiff.synced, hdiff.grows,
      fun m x => ?_⟩
    · rw [derivative, bind_of_ok (inspect_eq hvalid), bind_of_ok (inspect_eq hvars),
        bind_of_ok hsync, bind_of_ok hread, Std.HashMap.getElem?_eq_none hknown]
      exact (bind_of_ok hpending).trans ((bind_of_ok hpass).trans (known_of_mem hself))
    · rw [hdiff.mem_iff, hkeys]
      refine or_congr_right' fun hnew => and_congr_right fun hx => ⟨hbelow m, fun hreach => ?_⟩
      subst hx
      have hreach' := (hsynced₁.graph.reaches_iff hdiff.grows.extends hlive).mpr hreach
      rcases hdiff.mem_iff.mp (hdiff.synced.memo.mem_of_reaches hreach' hself) with hold | hnow
      · exact absurd ((hkeys _).mp hold) hnew
      · exact hnow.2

/-- Whatever the memo has in it, a derivative has the outcome it has by direct recursion. -/
theorem derivative_outcome (hw : w.Trusted) (node var : Handle) :
    withoutMemo (derivative node var w) = BuildM.derivative node var w.graph := by
  cases hvalid : w.graph.validate [node, var] with
  | error e =>
      have hrefused : derivative node var w = .error (.refused e) w :=
        bind_of_error (inspect_eq_error hvalid)
      rw [hrefused, BuildM.derivative, bind_of_error (BuildM.inspect_eq_error hvalid)]
      rfl
  | ok _ =>
      cases hvars : w.graph.expectVariables [var] with
      | error e =>
          have hrefused : derivative node var w = .error (.refused e) w :=
            (bind_of_ok (inspect_eq hvalid)).trans (bind_of_error (inspect_eq_error hvars))
          rw [hrefused, BuildM.derivative, bind_of_ok (BuildM.inspect_eq hvalid),
            bind_of_error (BuildM.inspect_eq_error hvars)]
          rfl
      | ok _ =>
          obtain ⟨d, w', hrun, hdirect, -⟩ := derivative_direct hw
            (validate_eq_ok_iff.mp hvalid node List.mem_cons_self)
            (expectVariables_eq_ok_iff.mp hvars var List.mem_cons_self)
          have hplace : BuildM.inspect (fun g => .ok (g.placeOf node)) w.graph =
              .ok (w.graph.placeOf node) w.graph := rfl
          rw [hrun, BuildM.derivative, bind_of_ok (BuildM.inspect_eq hvalid),
            bind_of_ok (BuildM.inspect_eq hvars), bind_of_ok hplace,
            hdirect _ (Nat.lt_succ_self _)]
          rfl

end DiffM

end ExprGraph
