import Mathlib
import ExprGraph.Proofs.Derivative.Direct
import ExprGraph.Proofs.Derivative.Progress

/-!
# Calls do not see the memo

Two workspaces with the same graph are twins.  As long as neither memo shows, a call gives twins the
same answer and leaves them with the same graph; so it does not matter which memo it is given.
-/

namespace ExprGraph

open Workspace

open ExprGraph.Graph

/-- The workspaces have the same graph, and the condition holds of both. -/
structure Workspace.Twins (I : Workspace → Prop) (w w' : Workspace) : Prop where
  graph : w'.graph = w.graph
  left : I w
  right : I w'

/-- The condition survives growth of the graph. -/
def Workspace.Stable (I : Workspace → Prop) : Prop :=
  ∀ {w w' : Workspace}, I w → w.graph.Grows w'.graph → w'.memo = w.memo → I w'

theorem Workspace.stable_synced : Stable Synced :=
  fun hw hgrows hmemo => (hw.swept_grows hgrows hmemo).synced

theorem Workspace.stable_honest : Stable Honest := by
  intro w w' hw hgrows hmemo
  refine ⟨hw.graph.grows hgrows, fun hcurrent => ?_⟩
  have hgeneration : w'.graph.generation = w.graph.generation := hgrows.extends.generation_eq
  have hbefore : w.Current := by
    rw [Current, ← hmemo, ← hgeneration]
    exact hcurrent
  rw [hmemo]
  exact (hw.memo hbefore).of_extends hgrows.extends

theorem Workspace.stable_trusted : Stable Trusted :=
  fun hw hgrows hmemo => ⟨(hw.ready.progress_grows hgrows hmemo).ready,
    stable_honest hw.honest hgrows hmemo⟩

namespace DiffM

variable {α β : Type} {I : Workspace → Prop} {w w' : Workspace}

/-- The work has the same outcome on both workspaces, memos aside, and wherever it ends the
condition holds. -/
structure SameOn (I : Workspace → Prop) (x : DiffM α) (w w' : Workspace) : Prop where
  outcome : withoutMemo (x w') = withoutMemo (x w)
  left : I (endState x w)
  right : I (endState x w')

/-- The work has the same outcome on twins, and leaves twins. -/
def Blind (I : Workspace → Prop) (x : DiffM α) : Prop :=
  ∀ w w', w.Twins I w' → SameOn I x w w'

namespace SameOn

theorem weaken {J : Workspace → Prop} {x : DiffM α} (hx : SameOn I x w w')
    (hIJ : ∀ w, I w → J w) : SameOn J x w w' :=
  ⟨hx.outcome, hIJ _ hx.left, hIJ _ hx.right⟩

theorem pure (hw : w.Twins I w') (a : α) : SameOn I (Pure.pure a) w w' where
  outcome := congrArg (EStateM.Result.ok a) hw.graph
  left := hw.left
  right := hw.right

theorem consult (hw : w.Twins I w') {f : Workspace → Except Failure α} (hf : f w' = f w) :
    SameOn I (DiffM.consult f) w w' := by
  cases hread : f w with
  | ok a =>
      have hrun : DiffM.consult f w = .ok a w := consult_eq hread
      have hrun' : DiffM.consult f w' = .ok a w' := consult_eq (hf.trans hread)
      refine ⟨?_, by rw [endState_of_ok hrun]; exact hw.left,
        by rw [endState_of_ok hrun']; exact hw.right⟩
      rw [hrun, hrun']
      exact congrArg (EStateM.Result.ok a) hw.graph
  | error e =>
      have hrun : DiffM.consult f w = .error e w := by rw [DiffM.consult, hread]
      have hrun' : DiffM.consult f w' = .error e w' := by rw [DiffM.consult, hf, hread]
      refine ⟨?_, by rw [endState_of_error hrun]; exact hw.left,
        by rw [endState_of_error hrun']; exact hw.right⟩
      rw [hrun, hrun']
      exact congrArg (EStateM.Result.error e) hw.graph

theorem onGraph (hI : Stable I) (hw : w.Twins I w') {work : BuildM α}
    (hwork : Keeps Graph.Grows work) : SameOn I (DiffM.onGraph work) w w' where
  outcome := by rw [withoutMemo_onGraph, withoutMemo_onGraph, hw.graph]
  left := by
    rw [endState_onGraph]
    exact hI hw.left (hwork w.graph) rfl
  right := by
    rw [endState_onGraph]
    exact hI hw.right (hwork w'.graph) rfl

/-- Work that does on both workspaces what the same work without a memo does. -/
theorem of_mirrors {x : DiffM α} {work : BuildM α} (hw : w.Twins Synced w')
    (hleft : Mirrors x work w) (hright : Mirrors x work w') : SameOn Synced x w w' where
  outcome := by rw [hleft.outcome, hright.outcome, hw.graph]
  left := hleft.swept.synced
  right := hright.swept.synced

/-- A first step that leads both workspaces on. -/
theorem bind_ok {x : DiffM α} {f : α → DiffM β} {v v' : Workspace} {a : α} (hx : x w = .ok a v)
    (hx' : x w' = .ok a v') (hf : SameOn I (f a) v v') : SameOn I (x >>= f) w w' where
  outcome := by rw [bind_of_ok hx, bind_of_ok hx', hf.outcome]
  left := by
    rw [endState, bind_of_ok hx]
    exact hf.left
  right := by
    rw [endState, bind_of_ok hx']
    exact hf.right

theorem bind {x : DiffM α} {f : α → DiffM β} (hx : SameOn I x w w')
    (hf : ∀ a v v', x w = .ok a v → v.Twins I v' → SameOn I (f a) v v') :
    SameOn I (x >>= f) w w' := by
  obtain ⟨houtcome, hleft, hright⟩ := hx
  cases hrun : x w with
  | ok a v =>
      cases hrun' : x w' with
      | error e v' =>
          rw [hrun, hrun'] at houtcome
          cases houtcome
      | ok a' v' =>
          rw [hrun, hrun'] at houtcome
          rw [endState_of_ok hrun] at hleft
          rw [endState_of_ok hrun'] at hright
          obtain ⟨rfl, hgraph⟩ := EStateM.Result.ok.inj houtcome
          exact bind_ok hrun hrun' (hf a' v v' hrun ⟨hgraph, hleft, hright⟩)
  | error e v =>
      cases hrun' : x w' with
      | ok a' v' =>
          rw [hrun, hrun'] at houtcome
          cases houtcome
      | error e' v' =>
          rw [hrun, hrun'] at houtcome
          obtain ⟨rfl, hgraph⟩ := EStateM.Result.error.inj houtcome
          rw [endState_of_error hrun] at hleft
          rw [endState_of_error hrun'] at hright
          refine ⟨?_, ?_, ?_⟩
          · rw [bind_of_error hrun, bind_of_error hrun']
            exact congrArg (EStateM.Result.error e') hgraph
          · rw [endState_of_error (bind_of_error hrun)]
            exact hleft
          · rw [endState_of_error (bind_of_error hrun')]
            exact hright

end SameOn

theorem blind_sequences (I : Workspace → Prop) : Sequences fun _ x => Blind I x where
  pure a _ _ hw := .pure hw a
  bind hx hf w w' hw := .bind (hx w w' hw) fun a v v' _ hv => hf a v v' hv

section Sweeps

theorem inspect_blind (hI : Stable I) (f : Graph → Except GraphError α) : Blind I (inspect f) :=
  fun _ _ hw => .onGraph hI hw (BuildM.inspect_keeps f)

/-- What is read off a graph is so. -/
theorem eq_of_inspect {f : Graph → Except GraphError α} {a : α} {v : Workspace}
    (hrun : inspect f w = .ok a v) : v = w ∧ f w.graph = .ok a := by
  cases hf : f w.graph with
  | ok b =>
      cases (inspect_eq hf).symm.trans hrun
      exact ⟨rfl, rfl⟩
  | error e => cases (inspect_eq_error hf).symm.trans hrun

theorem isZero_same (hw : w.Twins I w') (h : Handle) : SameOn I (isZero h) w w' :=
  .consult hw (by rw [hw.graph])

theorem chain_same {node : Handle} {app : Application} (hw : w.Twins Synced w')
    (hn : w.graph.node node = .ok (.app app)) (tangents : List Handle) :
    SameOn Synced (chain node app tangents) w w' :=
  .of_mirrors hw (chainFrom_mirrors hw.left hn) (chainFrom_mirrors hw.right (hw.graph ▸ hn))

theorem tangentOf_blind (tangents : Tangents) (node : Handle) :
    Blind I (tangentOf tangents node) := by
  intro w w' hw
  unfold tangentOf
  split
  · exact .pure hw _
  · exact ⟨congrArg (EStateM.Result.error _) hw.graph, hw.left, hw.right⟩

theorem sweepForward_blind (seeds : Tangents) (zero : Handle) (tangents : Tangents)
    (node : Handle) : Blind Synced (sweepForward seeds zero tangents node) := by
  intro w w' hw
  refine .bind (inspect_blind stable_synced _ w w' hw) fun n v v' hread hv => ?_
  obtain ⟨rfl, hn⟩ := eq_of_inspect hread
  cases n with
  | var id name => exact .pure hv _
  | lit value => exact .pure hv _
  | app app =>
      refine .bind ((blind_sequences Synced).mapM (tangentOf_blind tangents) app.args v v' hv)
        fun operandTangents v₁ v₁' hfound hv₁ => ?_
      have hgrows : Workspace.Grows v v₁ :=
        ((Keeps.mapM (KeptBySteps.tangentOf tangents) app.args).gives v _ _ hfound).1
      exact .bind (chain_same hv₁ (hgrows.extends.node_eq hn) operandTangents)
        fun t v₂ v₂' _ hv₂ => .pure hv₂ _

/-- After looking whether the memo belongs to the graph, both are in step with it. -/
theorem sync_bind_same {rest : Unit → DiffM α} (hw : w.Twins Honest w')
    (hrest : ∀ v v', v.Twins Synced v' → SameOn Synced (rest ()) v v') :
    SameOn Honest (sync >>= rest) w w' := by
  obtain ⟨v, hrun, hsynced, hgraph, -⟩ := sync_synced hw.left
  obtain ⟨v', hrun', hsynced', hgraph', -⟩ := sync_synced hw.right
  have hv : v.Twins Synced v' := ⟨by rw [hgraph, hgraph', hw.graph], hsynced, hsynced'⟩
  exact .bind_ok hrun hrun' ((hrest v v' hv).weaken fun _ => Synced.honest)

theorem forward_blind (roots : List Handle) (seeds : Tangents) :
    Blind Honest (forward roots seeds) := by
  intro w w' hw
  refine sync_bind_same hw fun v v' hv => ?_
  refine .bind (.consult hv (by rw [hv.graph])) fun order v₁ v₁' _ hv₁ => ?_
  refine .bind (.onGraph stable_synced hv₁ (BuildM.literal_keeps 0.0)) fun zero v₂ v₂' _ hv₂ => ?_
  exact .bind ((blind_sequences Synced).foldlM (sweepForward_blind seeds zero) order {} v₂ v₂' hv₂)
    fun tangents v₃ v₃' _ hv₃ =>
      (blind_sequences Synced).mapM (tangentOf_blind tangents) roots v₃ v₃' hv₃

theorem distribute_same {active : Std.HashSet Handle} {node : Handle} {app : Application}
    {adjoint : Handle} {index : Nat} {args : List Handle} {adj : Adjoints}
    (hw : w.Twins Synced w') (hn : w.graph.node node = .ok (.app app)) :
    SameOn Synced (distribute active node app adjoint index args adj) w w' := by
  induction args generalizing w w' index adj with
  | nil => exact .pure hw adj
  | cons arg rest ih =>
      rw [distribute]
      split
      · have hp := SameOn.of_mirrors hw (partialOf_mirrors hw.left hn index)
          (partialOf_mirrors hw.right (hw.graph ▸ hn) index)
        refine .bind hp fun p v v' hbuilt hv => ?_
        have hgrows : Workspace.Grows w v :=
          ((steps_keep.partialOf node app index).gives w _ _ hbuilt).1
        have hn' := hgrows.extends.node_eq hn
        refine .bind (isZero_same hv p) fun zeroPartial v₁ v₁' hzero hv₁ => ?_
        obtain rfl : v = v₁ := by
          cases hzero
          rfl
        split
        · exact ih hv₁ hn'
        · refine .bind (.onGraph stable_synced hv₁ (BuildM.operation_keeps .mul [p, adjoint]))
            fun term v₂ v₂' hterm hv₂ => ?_
          have hgrows' : Workspace.Grows v v₂ :=
            ((steps_keep.operation .mul [p, adjoint]).gives v _ _ hterm).1
          exact ih hv₂ (hgrows'.extends.node_eq hn')
      · exact ih hw hn

theorem sweepReverse_blind (active : Std.HashSet Handle) (adj : Adjoints) (node : Handle) :
    Blind Synced (sweepReverse active adj node) := by
  intro w w' hw
  unfold sweepReverse
  split
  · exact .pure hw adj
  · refine .bind (.onGraph stable_synced hw (BuildM.sum_keeps _)) fun adjoint v v' _ hv => ?_
    refine .bind (inspect_blind stable_synced _ v v' hv) fun n v₁ v₁' hread hv₁ => ?_
    obtain ⟨rfl, hn⟩ := eq_of_inspect hread
    cases n with
    | var id name => exact .pure hv₁ _
    | lit value => exact .pure hv₁ _
    | app app => exact distribute_same hv₁ hn

theorem reverse_blind (roots seeds vars : List Handle) :
    Blind Honest (reverse roots seeds vars) := by
  intro w w' hw
  refine sync_bind_same hw fun v v' hv => ?_
  refine .bind (.consult hv (by rw [hv.graph])) fun order v₁ v₁' _ hv₁ => ?_
  refine .bind (inspect_blind stable_synced _ v₁ v₁' hv₁) fun active v₂ v₂' _ hv₂ => ?_
  refine .bind (.consult hv₂ (by rw [hv₂.graph])) fun seeded v₃ v₃' _ hv₃ => ?_
  refine .bind ((blind_sequences Synced).foldlM (sweepReverse_blind active) order.reverse seeded
    v₃ v₃' hv₃) fun adj v₄ v₄' _ hv₄ => ?_
  exact .bind (.onGraph stable_synced hv₄ (BuildM.literal_keeps 0.0)) fun zero v₅ v₅' _ hv₅ =>
    .pure hv₅ _

theorem seedTangents_blind (pairs : List (Handle × Handle)) (tangents : Tangents) :
    Blind Honest (seedTangents pairs tangents) := by
  induction pairs generalizing tangents with
  | nil => exact fun w w' hw => .pure hw tangents
  | cons pair rest ih =>
      obtain ⟨var, seed⟩ := pair
      intro w w' hw
      rw [seedTangents]
      cases tangents[var]? with
      | none => exact .bind (.pure hw seed) fun t v v' _ hv => ih _ v v' hv
      | some before =>
          exact .bind (.onGraph stable_honest hw (BuildM.operation_keeps .add [before, seed]))
            fun t v v' _ hv => ih _ v v' hv

theorem declareMany_blind (stem : String) (count : Nat) :
    Blind Honest (onGraph (BuildM.extend fun g => g.declareMany stem count)) :=
  fun _ _ hw =>
    .onGraph stable_honest hw (BuildM.extend_keeps fun g => declareFrom_grows g stem 1 count)

theorem checkArguments_blind (outputs vars : List Handle) :
    Blind Honest (checkArguments outputs vars) :=
  (blind_sequences Honest).bind (inspect_blind stable_honest _) fun _ =>
    inspect_blind stable_honest _

theorem jacobianTimes_blind (outputs vars : List Handle) :
    Blind Honest (jacobianTimes outputs vars) :=
  (blind_sequences Honest).bind (checkArguments_blind outputs vars) fun _ =>
    (blind_sequences Honest).bind (declareMany_blind "v" vars.length) fun seeds =>
      (blind_sequences Honest).bind (seedTangents_blind (vars.zip seeds) {}) fun tangents =>
        (blind_sequences Honest).bind (forward_blind outputs tangents) fun _ =>
          (blind_sequences Honest).pure _

theorem transposeTimes_blind (outputs vars : List Handle) :
    Blind Honest (transposeTimes outputs vars) :=
  (blind_sequences Honest).bind (checkArguments_blind outputs vars) fun _ =>
    (blind_sequences Honest).bind (declareMany_blind "w" outputs.length) fun seeds =>
      (blind_sequences Honest).bind (reverse_blind outputs seeds vars) fun _ =>
        (blind_sequences Honest).pure _

end Sweeps

/-- Wherever blind work ends the condition still holds. -/
theorem Blind.holds {x : DiffM α} (hx : Blind I x) (hw : I w) : I (endState x w) :=
  (hx w w ⟨rfl, hw, hw⟩).left

/-- Work that makes progress stays trusted when it stays honest. -/
theorem Blind.trusted {x : DiffM α} (hx : Blind Honest x) (hadvances : Keeps Advances x) :
    Blind Trusted x := by
  intro w w' hw
  obtain ⟨houtcome, hleft, hright⟩ := hx w w' ⟨hw.graph, hw.left.honest, hw.right.honest⟩
  exact ⟨houtcome, ⟨(hadvances w hw.left.ready).ready, hleft⟩,
    ⟨(hadvances w' hw.right.ready).ready, hright⟩⟩

theorem derivative_honest (hw : w.Trusted) (node var : Handle) :
    (endState (derivative node var) w).Honest := by
  by_cases hargs : w.graph.Live node ∧ w.graph.IsVariable var
  · obtain ⟨d, v, hrun, -, -, hsynced, -⟩ := derivative_direct hw hargs.1 hargs.2
    rw [endState_of_ok hrun]
    exact hsynced.honest
  · obtain ⟨e, hrefused⟩ := derivative_refused hargs
    rw [endState_of_error hrefused]
    exact hw.honest

theorem derivative_blind (node var : Handle) : Blind Trusted (derivative node var) := by
  intro w w' hw
  refine ⟨?_, ⟨(derivative_advances node var w hw.left.ready).ready,
    derivative_honest hw.left node var⟩, ⟨(derivative_advances node var w' hw.right.ready).ready,
    derivative_honest hw.right node var⟩⟩
  rw [derivative_outcome hw.left, derivative_outcome hw.right, hw.graph]

end DiffM

/-- A call gives twins the same answer and leaves them with the same graph. -/
theorem Call.run_blind (call : Call) : DiffM.Blind Trusted call.run := by
  have hparts : DiffM.HasParts fun _ x => DiffM.Blind Trusted x := {
    toSequences := DiffM.blind_sequences Trusted
    onGraph := fun hwork _ _ hw => .onGraph stable_trusted hw hwork
    isZero := fun h _ _ hw => DiffM.isZero_same hw h
    derivative := DiffM.derivative_blind
    jacobianTimes := fun outputs vars =>
      (DiffM.jacobianTimes_blind outputs vars).trusted (DiffM.jacobianTimes_advances outputs vars)
    transposeTimes := fun outputs vars =>
      (DiffM.transposeTimes_blind outputs vars).trusted
        (DiffM.transposeTimes_advances outputs vars) }
  exact hparts.run call

theorem Workspace.trusted_empty {g : Graph} (hg : g.WellFormed) : Trusted ⟨g, Memo.empty⟩ where
  ready := ⟨hg, nofun⟩
  honest := ⟨hg, nofun⟩

/-- Whatever the memo has in it, a call has the outcome it has with a fresh one. -/
theorem Call.run_fresh {w : Workspace} (hw : w.Trusted) (call : Call) :
    withoutMemo (call.run w) = withoutMemo (call.run ⟨w.graph, Memo.empty⟩) :=
  (call.run_blind ⟨w.graph, Memo.empty⟩ w
    ⟨rfl, trusted_empty hw.ready.graph, hw⟩).outcome

/-- With another memo a call gives the same answer, and leaves the same graph. -/
theorem Call.run_with_memo {w v : Workspace} (hw : w.Trusted) {call : Call} {answer : Answer}
    (hrun : call.run w = .ok answer v) {memo : Memo} (hmemo : Trusted ⟨w.graph, memo⟩) :
    ∃ memo', call.run ⟨w.graph, memo⟩ = .ok answer ⟨v.graph, memo'⟩ := by
  have hsame := (call.run_blind w ⟨w.graph, memo⟩ ⟨rfl, hw, hmemo⟩).outcome
  rw [hrun] at hsame
  cases hother : call.run ⟨w.graph, memo⟩ with
  | error e v' =>
      rw [hother] at hsame
      cases hsame
  | ok answer' v' =>
      rw [hother] at hsame
      obtain ⟨rfl, hgraph⟩ := EStateM.Result.ok.inj hsame
      exact ⟨v'.memo, congrArg (fun g => EStateM.Result.ok _ (Workspace.mk g v'.memo)) hgraph⟩

theorem Call.run_trusted {w : Workspace} (hw : w.Trusted) (call : Call) :
    (endState call.run w).Trusted :=
  call.run_blind.holds hw

end ExprGraph
