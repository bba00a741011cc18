import Mathlib
import ExprGraph.Derivative.Forward
import ExprGraph.Proofs.Graph.Traversal
import ExprGraph.Proofs.Derivative.Memo

/-!
# Forward differentiation is correct

On a ready workspace the derivative of a live node by a variable is built without failing, and its
value is the tangent of the node when that variable alone moves.  The same holds of a forward sweep,
whose seeds may have any values.
-/

namespace ExprGraph

open Workspace

namespace Graph

variable {g g' : Graph}

/-- What has been added up so far; nothing stands for zero. -/
def DenotesTotal (g : Graph) (total : Option Handle) (f : ∀ r : Reading, r.R) : Prop :=
  match total with
  | some h => g.Denotes h f
  | none => ∀ r, f r = 0

theorem DenotesTotal.grows {total : Option Handle} {f : ∀ r : Reading, r.R}
    (htotal : g.DenotesTotal total f) (hg : g.WellFormed) (hgrows : g.Grows g') :
    g'.DenotesTotal total f := by
  cases total with
  | none => exact htotal
  | some h => exact Denotes.grows htotal hg hgrows

end Graph

open ExprGraph.Graph

namespace DiffM

variable {w : Workspace}

theorem literal_succeeds (hw : w.Ready) (v : Float) :
    Succeeds Advances (literal v) w fun h w' => w'.graph.Denotes h fun r => r.interp.literal v :=
  onGraph_succeeds (BuildM.literal_succeeds hw.graph v)

/-- Work goes on with a term added to what has been added up so far. -/
theorem add_term_bind (hw : w.Ready) {total : Option Handle} {term : Handle}
    {f t : ∀ r : Reading, r.R} (htotal : w.graph.DenotesTotal total f)
    (hterm : w.graph.Denotes term t) {α : Type} {work : Handle → DiffM α}
    {Q : α → Workspace → Prop}
    (hwork : ∀ total' w', Advances w w' → w'.graph.Denotes total' (fun r => f r + t r) →
      Succeeds Advances (work total') w' Q) :
    Succeeds Advances
      (match total with
        | some before => operation .add [before, term] >>= work
        | none => pure term >>= work) w Q := by
  cases total with
  | none =>
      have hsum : w.graph.Denotes term fun r => f r + t r :=
        hterm.congr fun _ r => by rw [htotal r, zero_add]
      exact .bind (.pure hsum) hwork
  | some before =>
      exact .bind (onGraph_succeeds (BuildM.add_succeeds hw.graph htotal hterm)) hwork

/-- Work goes on with a local partial, or without it when it is zero. -/
theorem slope_bind {node : Handle} {app : Application} {index : Nat} (hw : w.Ready)
    (hcurrent : w.Current) (hn : w.graph.node node = .ok (.app app))
    (hindex : index < app.args.length) {α : Type} {skip : DiffM α} {work : Handle → DiffM α}
    {Q : α → Workspace → Prop}
    (hskip : ∀ w', w.Progress w' →
      (w'.graph.folds = false → ∀ r, w.graph.slopeOf app index r = 0) →
      Succeeds Advances skip w' Q)
    (hwork : ∀ p w', w.Progress w' → w'.graph.Denotes p (w.graph.slopeOf app index) →
      Succeeds Advances (work p) w' Q) :
    Succeeds Advances (do
      let p ← partialOf node app index
      if ← isZero p then skip else work p) w Q := by
  apply Succeeds.bind (partialOf_succeeds hw hcurrent hn hindex)
  intro p w' hadv hp
  apply Succeeds.bind_eq (consult_eq rfl)
  split
  · next hzero =>
    apply hskip w' (hadv hw)
    intro hfolds r
    rw [← hp.2 hfolds r, read_of_isZero hzero]
  · exact hwork p w' (hadv hw) hp

/-- The chain rule adds the slopes of the operator times the tangents of the operands. -/
theorem chainFrom_succeeds {node : Handle} {app : Application} {index : Nat}
    {tangents : List Handle} {fs : List (∀ r : Reading, r.R)} {total : Option Handle}
    {f : ∀ r : Reading, r.R} (hw : w.Ready) (hcurrent : w.Current)
    (hn : w.graph.node node = .ok (.app app))
    (hlength : index + tangents.length = app.args.length)
    (htangents : List.Forall₂ w.graph.Denotes tangents fs)
    (htotal : w.graph.DenotesTotal total f) :
    Succeeds Advances (chainFrom node app index tangents total) w fun d w' =>
      w'.graph.Denotes d fun r => f r + r.interp.chain app.op
        (app.args.map (w.graph.read r)) index (fs.map fun f => f r) := by
  induction tangents generalizing w index fs total f with
  | nil =>
      cases htangents
      cases total with
      | none =>
          apply (literal_succeeds hw 0.0).weaken
          intro d w' _ hd
          apply hd.congr
          intro _ r
          rw [r.lawful.literal_zero_pos, htotal r]
          exact (add_zero 0).symm
      | some total => exact .pure (Denotes.congr htotal fun _ r => (add_zero (f r)).symm)
  | cons tangent rest ih =>
      obtain ⟨t, ts, htangent, hrest, rfl⟩ := List.forall₂_cons_left_iff.mp htangents
      have hlength' : index + 1 + rest.length = app.args.length := by
        rw [← hlength, List.length_cons]
        omega
      rw [chainFrom]
      apply Succeeds.bind_eq (consult_eq rfl)
      split
      · next hzero =>
        apply (ih hw hcurrent hn hlength' hrest htotal).weaken
        intro d w' hadv hd
        apply hd.congr
        intro hfolds r
        have ht : t r = 0 := by
          rw [← htangent.2 ((hadv hw).grows.extends.folds ▸ hfolds) r, read_of_isZero hzero]
        rw [List.map_cons, Interpretation.chain, ht, mul_zero, zero_add]
      · refine slope_bind hw hcurrent hn (by rw [← hlength]; simp) ?_ ?_
        · intro w₁ hprogress₁ hslope
          apply (ih hprogress₁.ready (hprogress₁.current hcurrent)
            (hprogress₁.grows.extends.node_eq hn) hlength'
            (denotes_list_grows hrest hw.graph hprogress₁.grows)
            (htotal.grows hw.graph hprogress₁.grows)).weaken
          intro d w' hadv hd
          apply hd.congr
          intro hfolds r
          have hzero : r.interp.slope app.op (app.args.map (w.graph.read r)) index = 0 :=
            hslope ((hadv hprogress₁.ready).grows.extends.folds ▸ hfolds) r
          rw [hw.graph.map_read_grows hprogress₁.grows fun a ha => hw.graph.live hn ha,
            List.map_cons, Interpretation.chain, hzero, zero_mul, zero_add]
        · intro p w₁ hprogress₁ hp
          have hw₁ := hprogress₁.ready
          refine .bind (onGraph_succeeds (BuildM.mul_succeeds hw₁.graph hp
            (htangent.grows hw.graph hprogress₁.grows))) ?_
          intro term w₂ hadv₂ hterm
          have hprogress₂ := hprogress₁.trans (hadv₂ hw₁)
          have hw₂ := hprogress₂.ready
          apply add_term_bind hw₂ (htotal.grows hw.graph hprogress₂.grows) hterm
          intro total' w₃ hadv₃ htotal'
          have hprogress₃ := hprogress₂.trans (hadv₃ hw₂)
          apply (ih hprogress₃.ready (hprogress₃.current hcurrent)
            (hprogress₃.grows.extends.node_eq hn) hlength'
            (denotes_list_grows hrest hw.graph hprogress₃.grows)
            (show w₃.graph.DenotesTotal (some total') _ from htotal')).weaken
          intro d w' _ hd
          apply hd.congr
          intro _ r
          rw [hw.graph.map_read_grows hprogress₃.grows fun a ha => hw.graph.live hn ha,
            List.map_cons, Interpretation.chain, add_assoc]
          rfl

/-- Nodes that are found or built one after the other have the values they have one by one. -/
theorem mapM_succeeds {work : Handle → DiffM Handle} {F : Handle → ∀ r : Reading, r.R}
    {hs : List Handle} (hw : w.Ready)
    (hwork : ∀ h ∈ hs, ∀ w', w.Progress w' →
      Succeeds Advances (work h) w' fun t w'' => w''.graph.Denotes t (F h)) :
    Succeeds Advances (hs.mapM work) w fun ts w' =>
      List.Forall₂ w'.graph.Denotes ts (hs.map F) := by
  have hstable : ∀ h t w₁ w₂, Advances w₁ w₂ → (w₁.Ready ∧ w₁.graph.Denotes t (F h)) →
      w₂.Ready ∧ w₂.graph.Denotes t (F h) :=
    fun h t w₁ w₂ hadv ht => ⟨(hadv ht.1).ready, ht.2.grows ht.1.graph (hadv ht.1).grows⟩
  refine (Succeeds.mapM hstable hs w fun h hh w' hadv => ?_).weaken fun ts w' _ hts => ?_
  · have hprogress := hadv hw
    apply (hwork h hh w' hprogress).weaken
    intro t w'' hadv' ht
    exact ⟨(hadv' hprogress.ready).ready, ht⟩
  · refine List.forall₂_map_right_iff.mpr (List.Forall₂.flip ?_)
    exact hts.imp fun _ _ ht => ht.2

/-- The tangent of an application is built from those of its operands. -/
theorem chain_succeeds {node : Handle} {app : Application} {tangents : List Handle}
    {w' : Workspace} (seed : ∀ r : Reading, Handle → r.R) (hw : w.Ready) (hcurrent : w.Current)
    (hn : w.graph.node node = .ok (.app app)) (hprogress : w.Progress w')
    (htangents : List.Forall₂ w'.graph.Denotes tangents
      (app.args.map fun a r => w.graph.tangent r (seed r) a)) :
    Succeeds Advances (chain node app tangents) w' fun d w'' =>
      w''.graph.Denotes d fun r => w.graph.tangent r (seed r) node := by
  have hlength : tangents.length = app.args.length := by
    rw [htangents.length_eq, List.length_map]
  have hnothing : w'.graph.DenotesTotal none fun _ => 0 := fun _ => rfl
  apply (chainFrom_succeeds hprogress.ready (hprogress.current hcurrent)
    (hprogress.grows.extends.node_eq hn) (by rw [hlength, zero_add]) htangents
    hnothing).weaken
  intro d w'' _ hd
  apply hd.congr
  intro _ r
  rw [zero_add, hw.graph.map_read_grows hprogress.grows fun a ha => hw.graph.live hn ha,
    hw.graph.tangent_of_app hn, List.map_map]
  rfl

/-- A kept derivative is found, and has the right value. -/
theorem known_succeeds {node var : Handle} (hw : w.Ready) (hcurrent : w.Current)
    (hkey : (node, var) ∈ w.memo.derivatives) :
    Succeeds Advances (known node var) w fun d w' =>
      w'.graph.Denotes d (w.graph.derivativeOf node var) := by
  have hfound := Std.HashMap.getElem?_eq_some_getElem hkey
  refine .of_eq (consult_eq ?_) (refl w) ((hw.memo hcurrent).derivatives hfound).2
  rw [hfound]

/-- A node whose operands have been differentiated is differentiated. -/
theorem differentiate_succeeds {node var : Handle} (hw : w.Ready) (hcurrent : w.Current)
    (hlive : w.graph.Live node)
    (hknown : ∀ a ∈ w.graph.argsOf node, (a, var) ∈ w.memo.derivatives) :
    Succeeds Advances (differentiate var node) w fun _ w' =>
      (node, var) ∈ w'.memo.derivatives := by
  obtain ⟨n, hn⟩ := hlive
  unfold differentiate
  apply Succeeds.bind_eq (inspect_eq hn)
  have hkeep : ∀ {d w'}, w.Progress w' → w'.graph.Denotes d (w.graph.derivativeOf node var) →
      Succeeds Advances (keep node var d) w' fun _ w'' => (node, var) ∈ w''.memo.derivatives := by
    intro d w' hprogress hd
    rw [← hw.graph.derivativeOf_grows hprogress.grows ⟨n, hn⟩] at hd
    exact keep_succeeds (hprogress.current hcurrent)
      (hprogress.grows.extends.live ⟨n, hn⟩) hd
  cases n with
  | var id name =>
      refine .bind (literal_succeeds hw _) fun d w' hadv hd =>
        hkeep (hadv hw) (hd.congr fun _ r => ?_)
      rw [derivativeOf, tangent_of_var hn, Reading.direction, Pi.single_apply]
      split
      · exact r.lawful.literal_one
      · exact r.lawful.literal_zero_pos
  | lit v =>
      refine .bind (literal_succeeds hw _) fun d w' hadv hd =>
        hkeep (hadv hw) (hd.congr fun _ r => ?_)
      rw [derivativeOf, tangent_of_lit hn, r.lawful.literal_zero_pos]
  | app app =>
      rw [argsOf_of_node hn] at hknown
      refine .bind (mapM_succeeds (F := fun a => w.graph.derivativeOf a var) hw ?_) ?_
      · intro a ha w' hprogress
        have hlive : w.graph.Live a := hw.graph.live hn ha
        rw [← hw.graph.derivativeOf_grows hprogress.grows hlive]
        exact known_succeeds hprogress.ready (hprogress.current hcurrent)
          (hprogress.known hcurrent _ (hknown a ha))
      · intro tangents w' hadv htangents
        have hprogress := hadv hw
        apply Succeeds.bind
          (chain_succeeds (fun r => r.direction var) hw hcurrent hn hprogress htangents)
        intro d w'' hadv' hd
        exact hkeep (hprogress.trans (hadv' hprogress.ready)) hd

/-- Nodes are differentiated in an order that has their operands first. -/
theorem differentiate_all_succeeds {var : Handle} {skip : Handle → Bool} {order : List Handle}
    (hw : w.Ready) (hcurrent : w.Current) (hlive : ∀ h ∈ order, w.graph.Live h)
    (hfirst : w.graph.OperandsFirst skip order)
    (hskip : ∀ a, skip a = true → (a, var) ∈ w.memo.derivatives) :
    Succeeds Advances (order.forM (differentiate var)) w fun _ w' =>
      ∀ h ∈ order, (h, var) ∈ w'.memo.derivatives := by
  -- the nodes that have been passed are known from then on
  refine (Succeeds.forM (Q := fun passed _ w' => w.Progress w' ∧
    ∀ h ∈ passed, (h, var) ∈ w'.memo.derivatives) ?_
    ⟨hw.progress_refl, fun h hh => absurd hh List.not_mem_nil⟩).weaken fun _ w' _ hknown => hknown.2
  rintro passed h left w' hsplit ⟨hprogress, hpassed⟩
  have hext := hprogress.grows.extends
  have hmem : h ∈ order := by simp [hsplit]
  have hargs : w'.graph.argsOf h = w.graph.argsOf h := hext.argsOf_eq (hlive h hmem)
  refine (differentiate_succeeds hprogress.ready (hprogress.current hcurrent)
    (hext.live (hlive h hmem)) fun a ha => ?_).weaken fun _ w'' hadv hknown => ?_
  · rw [hargs] at ha
    rcases hfirst passed h left hsplit a ha with hskipped | hbefore
    · exact hprogress.known hcurrent _ (hskip a hskipped)
    · exact hpassed a hbefore
  · have hprogress' := hadv hprogress.ready
    refine ⟨hprogress.trans hprogress', fun b hb => ?_⟩
    rcases List.mem_append.mp hb with hold | hself
    · exact hprogress'.known (hprogress.current hcurrent) _ (hpassed b hold)
    · rw [List.mem_singleton.mp hself]
      exact hknown

/-- The derivative of a live node by a variable. -/
theorem derivative_succeeds {node var : Handle} (hw : w.Ready) (hlive : w.graph.Live node)
    (hvar : w.graph.IsVariable var) :
    Succeeds Advances (derivative node var) w fun d w' =>
      w'.graph.Denotes d (w.graph.derivativeOf node var) := by
  have hboth : ∀ h ∈ [node, var], w.graph.Live h := by
    simpa using ⟨hlive, hvar.live⟩
  unfold derivative
  apply Succeeds.bind_eq (inspect_eq (validate_eq_ok_iff.mpr hboth))
  apply Succeeds.bind_eq (inspect_eq (expectVariables_eq_ok_iff.mpr (by simpa using hvar)))
  apply Succeeds.bind sync_succeeds
  rintro _ w₁ hadv ⟨hcurrent, hgraph, _⟩
  have hw₁ := (hadv hw).ready
  rw [← hgraph] at hlive ⊢
  apply Succeeds.bind_eq (consult_eq rfl)
  split
  · next d hfound => exact .pure ((hw₁.memo hcurrent).derivatives hfound).2
  · have hroot : ∀ root ∈ [node], w₁.graph.Live root := by simpa using hlive
    obtain ⟨order, hrun, horder⟩ := hw₁.graph.orderSkipping_eq
      (fun a => w₁.memo.derivatives.contains (a, var)) hroot
    apply Succeeds.bind_eq (consult_eq hrun)
    apply Succeeds.bind (differentiate_all_succeeds hw₁ hcurrent (fun _ => horder.live)
      horder.operandsFirst fun a ha => by simpa using ha)
    intro _ w₂ hadv₂ hknown
    have hprogress₂ := hadv₂ hw₁
    apply (known_succeeds hprogress₂.ready (hprogress₂.current hcurrent)
      (hknown node (horder.mem List.mem_cons_self))).weaken
    intro d _ _ hd
    rwa [hw₁.graph.derivativeOf_grows hprogress₂.grows hlive] at hd

section Sweep

variable {seeds : Tangents} {seed : ∀ r : Reading, Handle → r.R}

/-- The tangents that have been built are those of the nodes that have been passed. -/
def Passed (g : Graph) (seed : ∀ r : Reading, Handle → r.R) (before : List Handle)
    (tangents : Tangents) (w : Workspace) : Prop :=
  ∀ h ∈ before, ∃ t, tangents[h]? = some t ∧
    w.graph.Denotes t fun r => g.tangent r (seed r) h

theorem Passed.concat {g : Graph} {before : List Handle} {tangents : Tangents} {w' : Workspace}
    {h t : Handle} (hpassed : Passed g seed before tangents w) (hprogress : w.Progress w')
    (hw : w.Ready) (ht : w'.graph.Denotes t fun r => g.tangent r (seed r) h) :
    Passed g seed (before ++ [h]) (tangents.insert h t) w' := by
  intro b hb
  rw [Std.HashMap.getElem?_insert]
  by_cases hself : h = b
  · subst hself
    exact ⟨t, by simp, ht⟩
  · have hold : b ∈ before := by
      rcases List.mem_append.mp hb with hold | hlast
      · exact hold
      · exact absurd (List.mem_singleton.mp hlast).symm hself
    obtain ⟨t', hfound, ht'⟩ := hpassed b hold
    exact ⟨t', by simpa [hself] using hfound, ht'.grows hw.graph hprogress.grows⟩

theorem Passed.tangentOf_succeeds {g : Graph} {before : List Handle} {tangents : Tangents}
    {w' : Workspace} {h : Handle} (hpassed : Passed g seed before tangents w)
    (hprogress : w.Progress w') (hw : w.Ready) (hmem : h ∈ before) :
    Succeeds Advances (tangentOf tangents h) w' fun t w'' =>
      w''.graph.Denotes t fun r => g.tangent r (seed r) h := by
  obtain ⟨t, hfound, ht⟩ := hpassed h hmem
  rw [tangentOf, hfound]
  exact .pure (ht.grows hw.graph hprogress.grows)

/-- One node of a forward sweep that started from the workspace `w`. -/
theorem sweepForward_succeeds {before : List Handle} {tangents : Tangents} {zero node : Handle}
    {w' : Workspace} (hw : w.Ready) (hcurrent : w.Current) (hlive : w.graph.Live node)
    (hprogress : w.Progress w') (hzero : w'.graph.Denotes zero fun _ => 0)
    (hseeds : ∀ x, w'.graph.DenotesTotal seeds[x]? fun r => seed r x)
    (hpassed : Passed w.graph seed before tangents w')
    (hfirst : ∀ a ∈ w.graph.argsOf node, a ∈ before) :
    Succeeds Advances (sweepForward seeds zero tangents node) w' fun tangents' w'' =>
      Passed w.graph seed (before ++ [node]) tangents' w'' := by
  obtain ⟨n, hn⟩ := hlive
  have hw' := hprogress.ready
  unfold sweepForward
  apply Succeeds.bind_eq (inspect_eq (hprogress.grows.extends.node_eq hn))
  cases n with
  | var id name =>
      refine .pure (hpassed.concat hw'.progress_refl hw' ?_)
      have hseed := hseeds node
      cases hfound : seeds[node]? with
      | none =>
          rw [hfound] at hseed
          apply hzero.congr
          intro _ r
          rw [tangent_of_var hn]
          exact (hseed r).symm
      | some t =>
          rw [hfound] at hseed
          exact Denotes.congr hseed fun _ r => (tangent_of_var hn).symm
  | lit v =>
      refine .pure (hpassed.concat hw'.progress_refl hw' (hzero.congr fun _ r => ?_))
      rw [tangent_of_lit hn]
  | app app =>
      rw [argsOf_of_node hn] at hfirst
      refine .bind (mapM_succeeds (F := fun a r => w.graph.tangent r (seed r) a) hw' ?_) ?_
      · intro a ha w'' hprogress'
        exact hpassed.tangentOf_succeeds hprogress' hw' (hfirst a ha)
      · intro operandTangents w'' hadv htangents
        have hprogress' := hadv hw'
        apply Succeeds.bind
          (chain_succeeds seed hw hcurrent hn (hprogress.trans hprogress') htangents)
        intro t w''' hadv' ht
        exact .pure (hpassed.concat (hprogress'.trans (hadv' hprogress'.ready)) hw' ht)

/-- A forward sweep gives every root its tangent. -/
theorem forward_succeeds {roots : List Handle} (hw : w.Ready)
    (hlive : ∀ root ∈ roots, w.graph.Live root)
    (hseeds : ∀ x, w.graph.DenotesTotal seeds[x]? fun r => seed r x) :
    Succeeds Advances (forward roots seeds) w fun ts w' =>
      List.Forall₂ w'.graph.Denotes ts
        (roots.map fun root r => w.graph.tangent r (seed r) root) := by
  unfold forward
  apply Succeeds.bind sync_succeeds
  rintro _ w₁ hadv ⟨hcurrent, hgraph, _⟩
  have hw₁ := (hadv hw).ready
  rw [← hgraph] at hlive hseeds ⊢
  obtain ⟨order, hrun, horder⟩ := hw₁.graph.order_eq hlive
  apply Succeeds.bind_eq (consult_eq hrun)
  apply Succeeds.bind (literal_succeeds hw₁ 0.0)
  intro zero w₂ hadv₂ hzero
  have hprogress₂ := hadv₂ hw₁
  have hzero₂ : w₂.graph.Denotes zero fun _ => 0 :=
    hzero.congr fun _ r => r.lawful.literal_zero_pos
  -- the nodes that have been passed have their tangents from then on
  refine .bind (Succeeds.foldlM (Q := fun passed _ tangents w' => w₂.Progress w' ∧
    Passed w₁.graph seed passed tangents w') ?_
    ⟨hprogress₂.ready.progress_refl, fun h hh => absurd hh List.not_mem_nil⟩) ?_
  · rintro passed h left tangents w' hsplit ⟨hprogress, hpassed⟩
    have hprogress' := hprogress₂.trans hprogress
    have hzero' := hzero₂.grows hprogress₂.ready.graph hprogress.grows
    have hseeds' : ∀ x, w'.graph.DenotesTotal seeds[x]? fun r => seed r x :=
      fun x => (hseeds x).grows hw₁.graph hprogress'.grows
    have hfirst : ∀ a ∈ w₁.graph.argsOf h, a ∈ passed := fun a ha =>
      (horder.operandsFirst passed h left hsplit a ha).resolve_left (by simp)
    apply (sweepForward_succeeds hw₁ hcurrent (horder.live (by simp [hsplit])) hprogress' hzero'
      hseeds' hpassed hfirst).weaken
    intro tangents' w'' hadv' hpassed'
    exact ⟨hprogress.trans (hadv' hprogress.ready), hpassed'⟩
  · rintro tangents w' - ⟨hprogress, hpassed⟩
    apply mapM_succeeds hprogress.ready
    intro root hroot w'' hprogress'
    exact hpassed.tangentOf_succeeds hprogress' hprogress.ready (horder.mem hroot)

end Sweep

end DiffM

end ExprGraph
