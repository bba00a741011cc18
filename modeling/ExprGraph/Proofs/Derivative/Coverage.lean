import Mathlib
import ExprGraph.Proofs.Derivative.Answer
import ExprGraph.Proofs.Derivative.Blind

/-!
# What a memo covers

The derivatives that a memo has are those of the nodes below the nodes that have been asked for.  A
call asks for the entries of the matrices it builds; sweeps ask for none.
-/

namespace ExprGraph

open Workspace

open ExprGraph.Graph

namespace DiffM

/-- What has been asked for by work, if it succeeds. -/
def asked {α : Type} (x : DiffM α) (w : Workspace) (asks : List (Handle × Handle)) :
    List (Handle × Handle) :=
  match x w with
  | .ok _ _ => asks
  | .error _ _ => []

/-- What repeated differentiation asks for, up to the first variable that is none. -/
def asksWrt : Handle → List Handle → Workspace → List (Handle × Handle)
  | _, [], _ => []
  | node, var :: rest, w =>
    match derivative node var w with
    | .ok d w' => (node, var) :: asksWrt d rest w'
    | .error _ _ => []

end DiffM

/-- The pairs of a node and a variable for which a call asks, with success, for the derivative. -/
def Call.asks (w : Workspace) : Call → List (Handle × Handle)
  | derivative node var => DiffM.asked (DiffM.derivative node var) w [(node, var)]
  | derivativeWrt node vars => DiffM.asksWrt node vars w
  | gradient node vars => DiffM.asked (DiffM.gradient node vars) w ([node] ×ˢ vars)
  | jacobian outputs vars columns =>
    DiffM.asked (DiffM.jacobian outputs vars columns) w (outputs ×ˢ columns.getD vars)
  | hessian node vars =>
    match DiffM.gradient node vars w with
    | .ok slopes w' =>
      [node] ×ˢ vars ++ DiffM.asked (DiffM.jacobian slopes vars none) w' (slopes ×ˢ vars)
    | .error _ _ => []
  | sparseJacobian outputs vars =>
    DiffM.asked (DiffM.sparseJacobian outputs vars) w (outputs ×ˢ vars)
  | hessianTimes node vars => DiffM.asked (DiffM.gradient node vars) w ([node] ×ˢ vars)
  | _ => []

/-- Work has left the memo with the derivatives of the nodes below those asked for, and with those
it had before unless it has become the memo of another graph or epoch. -/
structure Workspace.Collects (asks : List (Handle × Handle)) (w w' : Workspace) : Prop where
  grows : w.graph.Grows w'.graph
  generation : w'.memo.generation = w.memo.generation ∨ w'.Current
  current : asks ≠ [] → w'.Current
  live : ∀ ask ∈ asks, w'.graph.Live ask.1
  mem_iff {m x : Handle} : (m, x) ∈ w'.memo.derivatives ↔
    (w'.memo.generation = w.memo.generation ∧ (m, x) ∈ w.memo.derivatives) ∨
      ∃ ask ∈ asks, ask.2 = x ∧ w'.graph.Reaches ask.1 m

namespace Workspace

variable {asks others : List (Handle × Handle)} {w w' w'' : Workspace}

theorem generation_eq_of_grows (hgrows : w.graph.Grows w'.graph) :
    w'.graph.generation = w.graph.generation :=
  hgrows.extends.generation_eq

/-- The memo of the graph as it is has been that before if its generation has stayed. -/
theorem current_iff_of_current (hgrows : w.graph.Grows w'.graph) (hcurrent : w'.Current) :
    w.Current ↔ w'.memo.generation = w.memo.generation := by
  have hnow : w'.memo.generation = some w.graph.generation :=
    hcurrent.trans (congrArg some (generation_eq_of_grows hgrows))
  rw [Current, hnow, eq_comm]

theorem collects_nil_of_eq (hgrows : w.graph.Grows w'.graph)
    (hgeneration : w'.memo.generation = w.memo.generation)
    (hderivatives : w'.memo.derivatives = w.memo.derivatives) : w.Collects [] w' :=
  ⟨hgrows, .inl hgeneration, by simp, by simp, by simp [hgeneration, hderivatives]⟩

theorem Collects.append (hfirst : w.Collects asks w') (hrest : w'.Collects others w'')
    (hgraph : asks ≠ [] → w'.graph.WellFormed) : w.Collects (asks ++ others) w'' := by
  have hgrows := hfirst.grows.trans hrest.grows
  -- a memo of the graph as it is stays one, and so does its generation
  have hstay : w'.Current → w''.memo.generation = w'.memo.generation := by
    intro hcurrent
    rcases hrest.generation with hsame | hcurrent'
    · exact hsame
    · exact (current_iff_of_current hrest.grows hcurrent').mp hcurrent
  have hcurrent : w'.Current → w''.Current := by
    intro hbefore
    rw [Current, hstay hbefore, generation_eq_of_grows hrest.grows]
    exact hbefore
  have hgeneration : w''.memo.generation = w.memo.generation →
      w''.memo.generation = w'.memo.generation ∧ w'.memo.generation = w.memo.generation := by
    intro hsame
    rcases hfirst.generation with hbefore | hbefore
    · exact ⟨hsame.trans hbefore.symm, hbefore⟩
    · exact ⟨hstay hbefore, (hstay hbefore).symm.trans hsame⟩
  refine ⟨hgrows, ?_, fun hasks => ?_, fun ask hask => ?_, fun {m x} => ?_⟩
  · rcases hrest.generation with hsame | hnow
    · rcases hfirst.generation with hsame' | hbefore
      · exact .inl (hsame.trans hsame')
      · exact .inr (hcurrent hbefore)
    · exact .inr hnow
  · by_cases hnone : asks = []
    · exact hrest.current (by simpa [hnone] using hasks)
    · exact hcurrent (hfirst.current hnone)
  · rcases List.mem_append.mp hask with hold | hnew
    · exact hrest.grows.extends.live (hfirst.live ask hold)
    · exact hrest.live ask hnew
  · have hreaches : ∀ ask ∈ asks, (w''.graph.Reaches ask.1 m ↔ w'.graph.Reaches ask.1 m) :=
      fun ask hask => (hgraph (List.ne_nil_of_mem hask)).reaches_iff hrest.grows.extends
        (hfirst.live ask hask)
    rw [hrest.mem_iff, hfirst.mem_iff]
    constructor
    · rintro (⟨hsame, ⟨hsame', hold⟩ | ⟨ask, hask, hx, hreach⟩⟩ | ⟨ask, hask, hrest⟩)
      · exact .inl ⟨hsame.trans hsame', hold⟩
      · exact .inr ⟨ask, List.mem_append_left _ hask, hx, (hreaches ask hask).mpr hreach⟩
      · exact .inr ⟨ask, List.mem_append_right _ hask, hrest⟩
    · rintro (⟨hsame, hold⟩ | ⟨ask, hask, hx, hreach⟩)
      · obtain ⟨hsame', hbefore⟩ := hgeneration hsame
        exact .inl ⟨hsame', .inl ⟨hbefore, hold⟩⟩
      · rcases List.mem_append.mp hask with hfrom | hfrom
        · exact .inl ⟨hstay (hfirst.current (List.ne_nil_of_mem hfrom)),
            .inr ⟨ask, hfrom, hx, (hreaches ask hfrom).mp hreach⟩⟩
        · exact .inr ⟨ask, hfrom, hx, hreach⟩

instance : IsPreorder Workspace (Collects []) where
  refl w := collects_nil_of_eq (refl w.graph) rfl rfl
  trans _ _ _ hfirst hrest := hfirst.append hrest fun hne => absurd rfl hne

/-- The steps of sweeps ask for nothing. -/
theorem steps_collect : KeptBySteps (Collects []) where
  onGraph {_ work} hwork w := by
    rw [DiffM.endState_onGraph]
    exact collects_nil_of_eq (hwork w.graph) rfl rfl
  sync w := by
    have hrun : DiffM.sync w = .ok () ⟨w.graph, w.memo.sync w.graph.generation⟩ := rfl
    rw [endState_of_ok hrun]
    by_cases hcurrent : w.Current
    · have hsame : w.memo.sync w.graph.generation = w.memo := if_pos hcurrent
      rw [hsame]
      exact refl w
    · have hfresh : w.memo.sync w.graph.generation = { generation := some w.graph.generation } :=
        if_neg hcurrent
      have hchanged : some w.graph.generation ≠ w.memo.generation := fun hsame =>
        hcurrent hsame.symm
      rw [hfresh]
      exact ⟨refl w.graph, .inr rfl, by simp, by simp, by simp [hchanged]⟩
  recordPartial _ _ _ w := collects_nil_of_eq (refl w.graph) rfl rfl

end Workspace

namespace DiffM

variable {α β : Type} {w : Workspace} {asks others : List (Handle × Handle)}

/-- The work succeeds, and its requests are those listed. -/
def Asks (asks : List (Handle × Handle)) (x : DiffM α) (w : Workspace) : Prop :=
  ∃ a w', x w = .ok a w' ∧ w'.Trusted ∧ w.Collects asks w'

namespace Asks

theorem pure (hw : w.Trusted) (a : α) : Asks [] (Pure.pure a) w :=
  ⟨a, w, rfl, hw, refl w⟩

theorem bind {x : DiffM α} {f : α → DiffM β} (hx : Asks asks x w)
    (hf : ∀ a w', x w = .ok a w' → w'.Trusted → w.graph.Grows w'.graph → Asks others (f a) w') :
    Asks (asks ++ others) (x >>= f) w := by
  obtain ⟨a, w', hrun, hw', hfirst⟩ := hx
  obtain ⟨b, w'', hrun', hw'', hrest⟩ := hf a w' hrun hw' hfirst.grows
  exact ⟨b, w'', (bind_of_ok hrun).trans hrun', hw'',
    hfirst.append hrest fun _ => hw'.ready.graph⟩

/-- A first step that leaves the workspace alone. -/
theorem bind_eq {x : DiffM α} {f : α → DiffM β} {a : α} (hx : x w = .ok a w)
    (hf : Asks asks (f a) w) : Asks asks (x >>= f) w := by
  obtain ⟨b, w', hrun, hrest⟩ := hf
  exact ⟨b, w', (bind_of_ok hx).trans hrun, hrest⟩

theorem map {x : DiffM α} (hx : Asks asks x w) (f : α → β) :
    Asks asks (x >>= fun a => Pure.pure (f a)) w := by
  have hboth := hx.bind (f := fun a => Pure.pure (f a)) fun a w' _ hw' _ => Asks.pure hw' (f a)
  rwa [List.append_nil] at hboth

theorem mapM {γ : Type} {f : γ → DiffM β} {log : γ → List (Handle × Handle)} {cs : List γ}
    (hw : w.Trusted)
    (hf : ∀ c ∈ cs, ∀ w', w'.Trusted → w.graph.Grows w'.graph → Asks (log c) (f c) w') :
    Asks (cs.flatMap log) (cs.mapM f) w := by
  induction cs generalizing w with
  | nil => exact pure hw []
  | cons c rest ih =>
      obtain ⟨hhead, hrest⟩ := List.forall_mem_cons.mp hf
      rw [List.mapM_cons, List.flatMap_cons]
      exact bind (hhead w hw (refl w.graph)) fun b w' _ hw' hgrows =>
        (ih hw' fun c hc w'' hw'' hgrows' => hrest c hc w'' hw'' (hgrows.trans hgrows')).map
          fun bs => b :: bs

theorem asked_eq {x : DiffM α} (hx : Asks asks x w) (all : List (Handle × Handle)) :
    asked x w all = all := by
  obtain ⟨a, w', hrun, -⟩ := hx
  rw [asked, hrun]

end Asks

theorem derivative_asks {node var : Handle} (hw : w.Trusted) (hlive : w.graph.Live node)
    (hvar : w.graph.IsVariable var) : Asks [(node, var)] (derivative node var) w := by
  obtain ⟨d, w', hrun, -, hready, hsynced, hgrows, hmem⟩ := derivative_direct hw hlive hvar
  refine ⟨d, w', hrun, ⟨hready, hsynced.honest⟩, hgrows, .inr hsynced.current,
    fun _ => hsynced.current, ?_, fun {m x} => ?_⟩
  · intro ask hask
    rw [List.mem_singleton.mp hask]
    exact hgrows.extends.live hlive
  · rw [hmem, current_iff_of_current hgrows hsynced.current,
      ← hw.ready.graph.reaches_iff hgrows.extends hlive]
    simp [eq_comm]

/-- The entries of a Jacobian are asked for row by row. -/
theorem derivativeRows_asks {outputs columns : List Handle} (hw : w.Trusted)
    (houtputs : ∀ out ∈ outputs, w.graph.Live out)
    (hcolumns : ∀ col ∈ columns, w.graph.IsVariable col) :
    Asks (outputs ×ˢ columns) (derivativeRows outputs columns) w := by
  have hrow : ∀ out ∈ outputs, ∀ w', w'.Trusted → w.graph.Grows w'.graph →
      Asks (columns.map (Prod.mk out)) (columns.mapM fun col => derivative out col) w' := by
    intro out hout w₁ hw₁ hgrows₁
    rw [List.map_eq_flatMap]
    refine .mapM hw₁ fun col hcol w₂ hw₂ hgrows₂ => ?_
    have hext := hgrows₁.extends.trans hgrows₂.extends
    exact derivative_asks hw₂ (hext.live (houtputs out hout)) (hext.isVariable (hcolumns col hcol))
  exact .mapM hw hrow

/-- A Jacobian is refused before anything is asked for, or everything is asked for. -/
theorem jacobian_cases (hw : w.Trusted) (outputs vars : List Handle)
    (columns : Option (List Handle)) :
    (∃ e, jacobian outputs vars columns w = .error e w) ∨
      Asks (outputs ×ˢ columns.getD vars) (jacobian outputs vars columns) w := by
  rcases resolveColumns_cases outputs vars columns w with
    ⟨e, hrefused⟩ | ⟨hresolved, houtputs, hcolumns⟩
  · exact .inl ⟨_, bind_of_error hrefused⟩
  · exact .inr (.bind_eq hresolved ((derivativeRows_asks hw houtputs hcolumns).map _))

theorem gradient_cases (hw : w.Trusted) (node : Handle) (vars : List Handle) :
    (∃ e, gradient node vars w = .error e w) ∨ Asks ([node] ×ˢ vars) (gradient node vars) w := by
  rcases jacobian_cases hw [node] vars none with ⟨e, hrefused⟩ | hasks
  · exact .inl ⟨e, bind_of_error hrefused⟩
  · exact .inr (hasks.map _)

theorem sparseJacobian_cases (hw : w.Trusted) (outputs vars : List Handle) :
    (∃ e, sparseJacobian outputs vars w = .error e w) ∨
      Asks (outputs ×ˢ vars) (sparseJacobian outputs vars) w := by
  rcases resolveColumns_cases outputs vars none w with
    ⟨e, hrefused⟩ | ⟨hresolved, houtputs, hcolumns⟩
  · exact .inl ⟨_, bind_of_error hrefused⟩
  · obtain ⟨rows, w', hrows, hw', hcollects⟩ := derivativeRows_asks hw houtputs hcolumns
    have hasks : Asks (outputs ×ˢ vars) (sparseRows vars 0 outputs) w :=
      ⟨_, w', sparseRows_of_rows hw.ready hrows 0, hw', hcollects⟩
    exact .inr (.bind_eq hresolved (hasks.map _))

/-- Work that is refused, or asks for everything, collects what has been asked for. -/
theorem collects_asked {x : DiffM α} (hx : (∃ e, x w = .error e w) ∨ Asks asks x w) :
    w.Collects (asked x w asks) (endState x w) := by
  rcases hx with ⟨e, hrefused⟩ | ⟨a, w', hrun, -, hcollects⟩
  · rw [asked, hrefused, endState_of_error hrefused]
    exact refl w
  · rw [asked, hrun, endState_of_ok hrun]
    exact hcollects

/-- Naming the result of work changes nothing. -/
theorem endState_map (x : DiffM α) (f : α → β) (w : Workspace) :
    endState (x >>= fun a => pure (f a)) w = endState x w := by
  cases hrun : x w with
  | ok a w' => rw [endState, bind_of_ok hrun, endState_of_ok hrun]; rfl
  | error e w' => rw [endState_of_error hrun, endState_of_error (bind_of_error hrun)]

theorem derivative_cases (hw : w.Trusted) (node var : Handle) :
    (∃ e, derivative node var w = .error e w) ∨ Asks [(node, var)] (derivative node var) w := by
  by_cases hargs : w.graph.Live node ∧ w.graph.IsVariable var
  · exact .inr (derivative_asks hw hargs.1 hargs.2)
  · obtain ⟨e, hrefused⟩ := derivative_refused hargs
    exact .inl ⟨_, hrefused⟩

/-- Repeated differentiation stops at the first variable that is none. -/
theorem foldlM_derivative_collects (hw : w.Trusted) (node : Handle) (vars : List Handle) :
    w.Collects (asksWrt node vars w)
      (endState (vars.foldlM (fun d var => derivative d var) node) w) := by
  induction vars generalizing w node with
  | nil => exact collects_nil_of_eq (refl w.graph) rfl rfl
  | cons var rest ih =>
      rw [List.foldlM_cons, asksWrt]
      rcases derivative_cases hw node var with ⟨e, hrefused⟩ | ⟨d, w', hrun, hw', hcollects⟩
      · rw [hrefused, endState_of_error (bind_of_error hrefused)]
        exact refl w
      · have hend : endState (derivative node var >>= fun d =>
            rest.foldlM (fun d var => derivative d var) d) w =
              endState (rest.foldlM (fun d var => derivative d var) d) w' := by
          rw [endState, bind_of_ok hrun, endState]
        rw [hrun, hend]
        exact hcollects.append (ih hw' d) fun _ => hw'.ready.graph

theorem derivativeWrt_collects (hw : w.Trusted) (node : Handle) (vars : List Handle) :
    w.Collects (asksWrt node vars w) (endState (derivativeWrt node vars) w) := by
  cases hvalid : w.graph.validate [node] with
  | ok _ =>
      have hend : endState (derivativeWrt node vars) w =
          endState (vars.foldlM (fun d var => derivative d var) node) w := by
        rw [endState, derivativeWrt, bind_of_ok (inspect_eq hvalid), endState]
      rw [hend]
      exact foldlM_derivative_collects hw node vars
  | error e =>
      have hrefused : derivativeWrt node vars w = .error (.refused e) w :=
        bind_of_error (inspect_eq_error hvalid)
      have hnone : asksWrt node vars w = [] := by
        cases vars with
        | nil => rfl
        | cons var rest =>
            have hlive : ¬(w.graph.Live node ∧ w.graph.IsVariable var) := by
              rintro ⟨hlive, -⟩
              have hall : ∀ h ∈ [node], w.graph.Live h := by simpa using hlive
              cases hvalid.symm.trans (validate_eq_ok_iff.mpr hall)
            obtain ⟨e', hrefused'⟩ := derivative_refused hlive
            rw [asksWrt, hrefused']
      rw [hnone, endState_of_error hrefused]
      exact refl w

end DiffM

open DiffM

/-- A call, whether it succeeds or fails, leaves the memo with the derivatives of the nodes below
those it has asked for. -/
theorem Call.run_collects {w : Workspace} (hw : w.Trusted) (call : Call) :
    w.Collects (call.asks w) (endState call.run w) := by
  cases call with
  | derivative node var =>
      rw [run, endState_map]
      exact collects_asked (derivative_cases hw node var)
  | derivativeWrt node vars =>
      rw [run, endState_map]
      exact derivativeWrt_collects hw node vars
  | gradient node vars =>
      rw [run, endState_map]
      exact collects_asked (gradient_cases hw node vars)
  | jacobian outputs vars columns =>
      rw [run, endState_map]
      exact collects_asked (jacobian_cases hw outputs vars columns)
  | hessian node vars =>
      rw [run, endState_map, asks]
      rcases gradient_cases hw node vars with ⟨e, hrefused⟩ | ⟨slopes, w', hrun, hw', hcollects⟩
      · rw [hrefused, DiffM.hessian, endState_of_error (bind_of_error hrefused)]
        exact refl w
      · have hend : endState (DiffM.hessian node vars) w =
            endState (DiffM.jacobian slopes vars none) w' := by
          rw [DiffM.hessian, endState, bind_of_ok hrun, endState]
        rw [hrun, hend]
        exact hcollects.append (collects_asked (jacobian_cases hw' slopes vars none))
          fun _ => hw'.ready.graph
  | sparseJacobian outputs vars =>
      rw [run, endState_map]
      exact collects_asked (sparseJacobian_cases hw outputs vars)
  | jacobianTimes outputs vars =>
      rw [run, endState_map]
      exact steps_collect.jacobianTimes outputs vars w
  | transposeTimes outputs vars =>
      rw [run, endState_map]
      exact steps_collect.transposeTimes outputs vars w
  | hessianTimes node vars =>
      rw [run, endState_map, asks]
      rcases gradient_cases hw node vars with ⟨e, hrefused⟩ | ⟨slopes, w', hrun, hw', hcollects⟩
      · rw [DiffM.asked, hrefused, DiffM.hessianTimes, endState_of_error (bind_of_error hrefused)]
        exact refl w
      · have hend : endState (DiffM.hessianTimes node vars) w =
            endState (DiffM.jacobianTimes slopes vars) w' := by
          rw [DiffM.hessianTimes, endState, bind_of_ok hrun, endState]
        have hboth := hcollects.append (steps_collect.jacobianTimes slopes vars w')
          fun _ => hw'.ready.graph
        rw [DiffM.asked, hrun, hend]
        rwa [List.append_nil] at hboth
  | _ => exact steps_collect.builds rfl w

end ExprGraph
