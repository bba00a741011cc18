import Mathlib
import ExprGraph.Proofs.Derivative.Confinement
import ExprGraph.Proofs.Derivative.Recall

/-!
# Independent operands are pruned

Each way of differentiating carries an invariant through its sweep: the derivatives a memo has, the
tangents of the nodes that have been passed, and the nodes at which adjoints may arrive.  Whatever
does not depend on the variables has the literal zero, or nothing at all, and no local partial is
built for it.
-/

namespace ExprGraph

open Workspace

open ExprGraph.Graph

namespace DiffM

variable {w : Workspace} {g : Graph} {roots : Set Handle} {vars : List Handle} {node : Handle}

/-- The chain rule at a node below the roots, for tangents that are zero where they have to be. -/
theorem chain_prunes {app : Application} {tangents : List Handle} (hg : g.WellFormed)
    (hgrows : g.Grows w.graph) (hn : g.node node = .ok (.app app))
    (hbelow : ∃ root ∈ roots, g.Reaches root node)
    (htangents : List.Forall₂ (fun a t => w.graph.ZeroUnless (g.DependsOn vars a) t)
      app.args tangents) :
    Gives (Confines (g.Feeds roots vars)) (chain node app tangents) w fun d w' =>
      w'.graph.ZeroUnless (g.DependsOn vars node) d := by
  have hallowed : ∀ k t, tangents[k]? = some t →
      w.graph.isZero t = true ∨ g.Feeds roots vars node (0 + k) := by
    intro k t ht
    obtain ⟨hk, rfl⟩ := List.getElem?_eq_some_iff.mp ht
    have hk' : k < app.args.length := htangents.length_eq ▸ hk
    have hpair := htangents.get hk' hk
    by_cases hdepends : g.DependsOn vars app.args[k]
    · exact .inr ⟨hbelow, app, app.args[k], hn, by simp [hk'], hdepends⟩
    · exact .inl (isZero_of_node (hpair hdepends))
  by_cases hdepends : g.DependsOn vars node
  · exact (chainFrom_confines (hgrows.extends.node_eq hn) hallowed).weaken
      fun _ _ _ _ hnot => absurd hdepends hnot
  · -- no operand depends on the variables either, so all tangents are zero
    have hargs : ∀ a ∈ app.args, ¬ g.DependsOn vars a := fun a ha hbelow =>
      hdepends (hbelow.of_operand (argsOf_of_node hn ▸ ha))
    have hzero : ∀ t ∈ tangents, w.graph.isZero t = true := by
      have hpairs := (List.forall₂_and_left _ _).mpr ⟨hargs, htangents⟩
      exact forall_mem_of_forall₂ (hpairs.imp fun _ _ hpair => isZero_of_node (hpair.2 hpair.1))
    intro d w' hrun
    rw [chain, chainFrom_of_isZero node app 0 hzero] at hrun
    obtain ⟨hconfines, hd⟩ := literal_gives_node (hg.grows hgrows) 0.0 d w' hrun
    exact ⟨hconfines, fun _ => hd⟩

section Memoised

variable {var : Handle}

/-- The derivatives of operands are those that the memo has. -/
theorem mapM_known_gives {R : Workspace → Workspace → Prop} [IsPreorder Workspace R]
    (args : List Handle) :
    Gives R (args.mapM fun a => known a var) w fun ds w' => w' = w ∧
      List.Forall₂ (fun a d => w.memo.derivatives[(a, var)]? = some d) args ds := by
  have hfound : Gives Eq (args.mapM fun a => known a var) w fun ds w' =>
      List.Forall₂ (fun a d => w'.memo.derivatives[(a, var)]? = some d) args ds :=
    Gives.mapM (fun _ _ _ _ hsame hd => hsame ▸ hd) fun a _ w' _ d w'' hrun =>
      ⟨(consult_gives _ w' d w'' hrun).1, getElem?_of_known hrun⟩
  intro ds w' hrun
  obtain ⟨rfl, hds⟩ := hfound ds w' hrun
  exact ⟨refl w, rfl, hds⟩

/-- One node below the roots, in a graph that has grown from `g`. -/
theorem differentiate_prunes (hg : g.WellFormed) (hgrows : g.Grows w.graph) (hlive : g.Live node)
    (hbelow : ∃ root ∈ roots, g.Reaches root node) (hw : w.Synced) :
    Gives (Confines (g.Feeds roots [var])) (differentiate var node) w fun _ w' => w'.Synced := by
  obtain ⟨n, hn⟩ := hlive
  have hn' := hgrows.extends.node_eq hn
  have hsweep : Gives (Confines (g.Feeds roots [var])) (differentiate var node) w
      fun _ _ => ∀ a ∈ n.args, (a, var) ∈ w.memo.derivatives := by
    refine .bind (inspect_gives _ w) fun n' w₁ _ hread => ?_
    obtain ⟨rfl, hread⟩ := hread
    cases hn'.symm.trans hread
    have hkeep : ∀ {x : DiffM Handle} {P : Handle → Workspace → Prop},
        Gives (Confines (g.Feeds roots [var])) x w₁ P →
        Gives (Confines (g.Feeds roots [var])) (x >>= keep node var) w₁ fun _ _ => True :=
      fun hx => .bind hx fun d w₂ _ _ => (keep_confines node var d).gives w₂
    cases n with
    | lit v =>
        exact (hkeep ((literal_confines 0.0).gives w₁)).weaken fun _ _ _ _ => nofun
    | var id name =>
        exact (hkeep ((literal_confines _).gives w₁)).weaken fun _ _ _ _ => nofun
    | app app =>
        refine .bind (mapM_known_gives app.args) fun ds w₂ _ hds => ?_
        obtain ⟨rfl, hds⟩ := hds
        have hzero : List.Forall₂ (fun a d => w₂.graph.ZeroUnless (g.DependsOn [var] a) d)
            app.args ds := by
          have hargs : ∀ a ∈ app.args, g.Live a := fun a ha => hg.live hn ha
          refine ((List.forall₂_and_left _ _).mpr ⟨hargs, hds⟩).imp fun a d hd hnot => ?_
          refine node_of_known hw hd.2 fun hreach => hnot ⟨var, List.mem_cons_self, ?_⟩
          exact (hg.reaches_iff hgrows.extends hd.1).mp hreach
        have hknown : ∀ a ∈ app.args, (a, var) ∈ w₂.memo.derivatives := by
          have hpairs := List.Forall₂.flip hds
          exact forall_mem_of_forall₂ (hpairs.imp fun _ _ hd =>
            Std.HashMap.mem_iff_isSome_getElem?.mpr (by simp [hd]))
        exact (hkeep (chain_prunes hg hgrows hn hbelow hzero)).weaken fun _ _ _ _ => hknown
  intro _ w' hrun
  obtain ⟨hconfines, hknown⟩ := hsweep () w' hrun
  obtain ⟨-, -, -, hsynced, -⟩ := differentiate_direct hw hn' hknown hrun
  exact ⟨hconfines, hsynced⟩

/-- A derivative asks for the local partials of the operands that lead to its variable. -/
theorem derivative_prunes (hw : w.Trusted) (node var : Handle) :
    Gives (Confines (w.graph.Feeds {node} [var])) (derivative node var) w fun _ _ => True := by
  refine .bind (inspect_gives _ w) fun _ w₁ _ hread => ?_
  obtain ⟨rfl, hvalid⟩ := hread
  have hlive := validate_eq_ok_iff.mp hvalid node List.mem_cons_self
  refine .bind (inspect_gives _ w₁) fun _ w₂ _ hread => ?_
  obtain ⟨rfl, -⟩ := hread
  obtain ⟨w₃, hsync, hsynced, hgraph, -⟩ := sync_synced hw.honest
  have hstart : Gives (Confines (w₂.graph.Feeds {node} [var])) sync w₂ fun _ w' => w' = w₃ := by
    intro _ w' hrun
    cases hsync.symm.trans hrun
    exact ⟨(sync_gives w₂ () w₃ hsync).1, rfl⟩
  rw [← hgraph] at hlive hstart ⊢
  refine .bind hstart fun _ w₄ _ hsame => ?_
  subst hsame
  refine .bind (consult_gives _ w₄) fun found w₅ _ hread => ?_
  obtain ⟨rfl, -⟩ := hread
  cases found with
  | some d => exact .pure trivial
  | none =>
      refine .bind (consult_gives _ w₅) fun pending w₆ _ hread => ?_
      obtain ⟨rfl, hread⟩ := hread
      have hroot : ∀ root ∈ [node], w₆.graph.Live root := by simpa using hlive
      obtain ⟨order, hrun, horder⟩ := hsynced.graph.orderSkipping_eq
        (fun a => w₆.memo.derivatives.contains (a, var)) hroot
      cases hrun.symm.trans hread
      refine .bind (Gives.forM (P := fun w' => w₆.graph.Grows w'.graph ∧ w'.Synced) ?_
        ⟨refl w₆.graph, hsynced⟩) fun _ w₇ _ _ => (consult_keeps _).gives w₇
      rintro h hh w' ⟨hgrows, hsynced'⟩
      have hbelow : ∃ root ∈ ({node} : Set Handle), w₆.graph.Reaches root h := by
        simpa using horder.reached hh
      exact (differentiate_prunes hsynced.graph hgrows (horder.live hh) hbelow hsynced').weaken
        fun _ w'' hconfines hsynced'' => ⟨hgrows.trans hconfines.grows, hsynced''⟩

end Memoised

section Forward

/-- The tangents of nodes that do not depend on the variables are zero. -/
def ZeroTangents (g : Graph) (vars : List Handle) (tangents : Tangents) (w : Workspace) : Prop :=
  ∀ {h t : Handle}, tangents[h]? = some t → w.graph.ZeroUnless (g.DependsOn vars h) t

variable {tangents seeds : Tangents} {zero : Handle}

theorem ZeroTangents.insert {w' : Workspace} {h t : Handle}
    (htangents : ZeroTangents g vars tangents w) (hext : w.graph.Extends w'.graph)
    (ht : w'.graph.ZeroUnless (g.DependsOn vars h) t) :
    ZeroTangents g vars (tangents.insert h t) w' := by
  intro h' t' hfound
  rw [Std.HashMap.getElem?_insert] at hfound
  split at hfound
  · next hself =>
    cases eq_of_beq hself
    cases hfound
    exact ht
  · exact (htangents hfound).extends hext

/-- Tangents of nodes that have been passed are found, and are zero where they have to be. -/
theorem mapM_tangentOf_gives {allowed : Handle → Nat → Prop} (hs : List Handle)
    (htangents : ZeroTangents g vars tangents w) :
    Gives (Confines allowed) (hs.mapM (tangentOf tangents)) w fun ts w' =>
      List.Forall₂ (fun h t => w'.graph.ZeroUnless (g.DependsOn vars h) t) hs ts := by
  refine Gives.mapM (fun _ _ _ _ hconfines ht => ht.extends hconfines.grows.extends)
    fun h _ w' hconfines => ?_
  unfold tangentOf
  split
  · next t hfound => exact .pure ((htangents hfound).extends hconfines.grows.extends)
  · exact .of_error rfl

/-- One node of a forward sweep over a graph that has grown from `g`. -/
theorem sweepForward_prunes (hg : g.WellFormed) (hgrows : g.Grows w.graph) (hlive : g.Live node)
    (hbelow : ∃ root ∈ roots, g.Reaches root node)
    (hzero : w.graph.node zero = .ok (.lit 0.0)) (hseeds : ∀ x ∈ seeds, x ∈ vars)
    (htangents : ZeroTangents g vars tangents w) :
    Gives (Confines (g.Feeds roots vars)) (sweepForward seeds zero tangents node) w
      fun tangents' w' => ZeroTangents g vars tangents' w' := by
  obtain ⟨n, hn⟩ := hlive
  refine .bind (inspect_gives _ w) fun n' w₁ _ hread => ?_
  obtain ⟨rfl, hn'⟩ := hread
  cases (hgrows.extends.node_eq hn).symm.trans hn'
  cases n with
  | lit v => exact .pure (htangents.insert (.refl _) fun _ => hzero)
  | var id name =>
      refine .pure (htangents.insert (.refl _) fun hnot => ?_)
      have hunseeded : node ∉ seeds := fun hseeded => hnot (dependsOn_of_mem (hseeds node hseeded))
      rw [Std.HashMap.getElem?_eq_none hunseeded]
      exact hzero
  | app app =>
      refine .bind (mapM_tangentOf_gives app.args htangents) fun ts w₂ hw₂ hts => ?_
      refine .bind (chain_prunes hg (hgrows.trans hw₂.grows) hn hbelow hts) fun t w₃ hw₃ ht => ?_
      exact .pure (htangents.insert (hw₂.grows.trans hw₃.grows).extends ht)

/-- A forward sweep with seeds for some variables gives the literal zero for every root that does
not depend on them. -/
theorem forward_prunes {roots : List Handle} (hg : w.graph.WellFormed)
    (hlive : ∀ root ∈ roots, w.graph.Live root) (hseeds : ∀ x ∈ seeds, x ∈ vars) :
    Gives (Confines (w.graph.Feeds {root | root ∈ roots} vars)) (forward roots seeds) w
      fun ts w' => List.Forall₂
        (fun root t => w'.graph.ZeroUnless (w.graph.DependsOn vars root) t) roots ts := by
  refine .bind (sync_gives w) fun _ w₁ _ hgraph => ?_
  rw [← hgraph] at hg hlive ⊢
  refine .bind (consult_gives _ w₁) fun order w₂ _ hread => ?_
  obtain ⟨rfl, hread⟩ := hread
  obtain ⟨order', hrun, horder⟩ := hg.order_eq hlive
  cases hrun.symm.trans hread
  refine .bind (literal_gives_node hg 0.0) fun zero w₃ hw₃ hzero => ?_
  refine .bind (Gives.foldlM (P := fun tangents w' => w₂.graph.Grows w'.graph ∧
    w'.graph.node zero = .ok (.lit 0.0) ∧ ZeroTangents w₂.graph vars tangents w') ?_
    ⟨hw₃.grows, hzero, ?_⟩) fun tangents w₄ _ hend => mapM_tangentOf_gives roots hend.2.2
  · rintro h hh tangents w' ⟨hgrows, hzero, htangents⟩
    refine (sweepForward_prunes hg hgrows (horder.live hh) (horder.reached hh) hzero hseeds
      htangents).weaken fun tangents' w'' hconfines htangents' => ?_
    exact ⟨hgrows.trans hconfines.grows, hconfines.grows.extends.node_eq hzero, htangents'⟩
  · exact fun hfound => by simp at hfound

end Forward

section Reverse

variable {active : Std.HashSet Handle} {adj : Adjoints}

/-- The nodes that take part in a reverse sweep depend on the variables. -/
theorem activeNodes_depend {result : Std.HashSet Handle} {order : List Handle}
    (hrun : activeNodes g vars order active = .ok result)
    (hactive : ∀ h ∈ active, g.DependsOn vars h) : ∀ h ∈ result, g.DependsOn vars h := by
  induction order generalizing active with
  | nil =>
      cases hrun
      exact hactive
  | cons node rest ih =>
      have hjoin : ∀ {joins : Bool}, (joins = true → g.DependsOn vars node) →
          ∀ h ∈ (if joins then active.insert node else active), g.DependsOn vars h := by
        intro joins hnode h hh
        split at hh
        · next hjoins =>
          rcases Std.HashSet.mem_insert.mp hh with hself | hold
          · exact eq_of_beq hself ▸ hnode hjoins
          · exact hactive h hold
        · exact hactive h hh
      rw [activeNodes] at hrun
      obtain ⟨n, hn, hrun⟩ := exists_of_bind_eq_ok hrun
      cases n with
      | lit v => exact ih hrun (hjoin fun hfalse => absurd hfalse Bool.false_ne_true)
      | var id name =>
          exact ih hrun (hjoin fun hwanted => dependsOn_of_mem (by simpa using hwanted))
      | app app =>
          refine ih hrun (hjoin fun hany => ?_)
          obtain ⟨a, ha, hcontains⟩ := List.any_eq_true.mp hany
          exact (hactive a (Std.HashSet.contains_iff_mem.mp hcontains)).of_operand
            (argsOf_of_node hn ▸ ha)

theorem totals_seedAdjoints (g : Graph) (active : Std.HashSet Handle)
    (pairs : List (Handle × Handle)) (adj : Adjoints) :
    (seedAdjoints g active pairs adj).totals = adj.totals := by
  induction pairs generalizing adj with
  | nil => rfl
  | cons pair rest ih =>
      obtain ⟨root, seed⟩ := pair
      rw [seedAdjoints, ih]
      split <;> rfl

/-- A node passes its adjoint on to operands that depend on the variables. -/
theorem distribute_prunes {allowed : Handle → Nat → Prop} {app : Application} {adjoint : Handle}
    {index : Nat} {args : List Handle} (hn : w.graph.node node = .ok (.app app))
    (hallowed : ∀ k a, args[k]? = some a → a ∈ active → allowed node (index + k)) :
    Gives (Confines allowed) (distribute active node app adjoint index args adj) w
      fun adj' _ => adj'.totals = adj.totals := by
  induction args generalizing w index adj with
  | nil => exact .pure rfl
  | cons arg rest ih =>
      -- the other operands, from any later state and with any terms
      have hnext : ∀ {w' : Workspace} (adj' : Adjoints), w.graph.Grows w'.graph →
          adj'.totals = adj.totals →
          Gives (Confines allowed) (distribute active node app adjoint (index + 1) rest adj') w'
            fun adj'' _ => adj''.totals = adj.totals := by
        intro w' adj' hgrows hsame
        refine (ih (hgrows.extends.node_eq hn) fun k a ha hactive => ?_).weaken
          fun _ _ _ htotals => htotals.trans hsame
        rw [Nat.add_assoc, Nat.add_comm 1]
        exact hallowed (k + 1) a ha hactive
      rw [distribute]
      split
      · next hcontains =>
        have hself : allowed node index :=
          hallowed 0 arg rfl (Std.HashSet.contains_iff_mem.mp hcontains)
        refine .bind (partialOf_confines hn hself) fun p w₁ hw₁ _ => ?_
        refine .bind ((consult_keeps _).gives w₁) fun zeroPartial w₂ hw₂ _ => ?_
        have hlater := hw₁.grows.trans hw₂.grows
        split
        · exact hnext adj hlater rfl
        · exact .bind ((operation_confines (by decide) [p, adjoint]).gives w₂)
            fun term w₃ hw₃ _ => hnext _ (hlater.trans hw₃.grows) rfl
      · exact hnext adj (refl w.graph) rfl

/-- One node of a reverse sweep over a graph that has grown from `g`. -/
theorem sweepReverse_prunes (hgrows : g.Grows w.graph) (hlive : g.Live node)
    (hbelow : ∃ root ∈ roots, g.Reaches root node) (hactive : ∀ h ∈ active, g.DependsOn vars h) :
    Gives (Confines (g.Feeds roots vars)) (sweepReverse active adj node) w
      fun adj' _ => ∀ var ∈ adj'.totals, var ∈ adj.totals ∨ var = node := by
  obtain ⟨n, hn⟩ := hlive
  unfold sweepReverse
  split
  · exact .pure fun var hvar => .inl hvar
  next ts _ =>
  have hsum : Keeps (Confines (g.Feeds roots vars)) (onGraph (BuildM.sum ts)) :=
    onGraph_confines (BuildM.sum_keeps ts) (BuildM.sum_addsNo (by decide) (by decide) ts)
  refine .bind (hsum.gives w) fun adjoint w₁ hw₁ _ => ?_
  refine .bind (inspect_gives _ w₁) fun n' w₂ _ hread => ?_
  obtain ⟨rfl, hread⟩ := hread
  have hn' := (hgrows.trans hw₁.grows).extends.node_eq hn
  cases hn'.symm.trans hread
  cases n with
  | lit v => exact .pure fun var hvar => .inl hvar
  | var id name =>
      refine .pure fun var hvar => ?_
      exact (Std.HashMap.mem_insert.mp hvar).symm.imp_right fun hself => (eq_of_beq hself).symm
  | app app =>
      refine (distribute_prunes hn' fun k a ha hmem => ?_).weaken
        fun adj' _ _ htotals var hvar => .inl (htotals ▸ hvar)
      rw [Nat.zero_add]
      exact ⟨hbelow, app, a, hn, ha, hactive a hmem⟩

/-- A reverse sweep gives the literal zero for every variable that no root depends on. -/
theorem reverse_prunes {roots seeds : List Handle} (hg : w.graph.WellFormed)
    (hlive : ∀ root ∈ roots, w.graph.Live root) :
    Gives (Confines (w.graph.Feeds {root | root ∈ roots} vars)) (reverse roots seeds vars) w
      fun totals w' => List.Forall₂ (fun var t =>
        w'.graph.ZeroUnless (∃ root ∈ roots, w.graph.Reaches root var) t) vars totals := by
  refine .bind (sync_gives w) fun _ w₁ _ hgraph => ?_
  rw [← hgraph] at hg hlive ⊢
  refine .bind (consult_gives _ w₁) fun order w₂ _ hread => ?_
  obtain ⟨rfl, hread⟩ := hread
  obtain ⟨order', hrun, horder⟩ := hg.order_eq hlive
  cases hrun.symm.trans hread
  refine .bind (inspect_gives _ w₂) fun active w₃ _ hread => ?_
  obtain ⟨rfl, hactive⟩ := hread
  have hdepend := activeNodes_depend hactive fun h hh => by simp at hh
  refine .bind (consult_gives _ w₃) fun seeded w₄ _ hread => ?_
  obtain ⟨rfl, hseeded⟩ := hread
  have hnone : ∀ var ∈ seeded.totals, var ∈ order := by
    rw [← Except.ok.inj hseeded, totals_seedAdjoints]
    exact fun var hvar => by simp at hvar
  refine .bind (Gives.foldlM (P := fun adj w' => w₄.graph.Grows w'.graph ∧
    ∀ var ∈ adj.totals, var ∈ order) ?_ ⟨refl w₄.graph, hnone⟩) fun adj w₅ hw₅ hend => ?_
  · rintro h hh adj w' ⟨hgrows, htotals⟩
    have hmem := List.mem_reverse.mp hh
    refine (sweepReverse_prunes hgrows (horder.live hmem) (horder.reached hmem) hdepend).weaken
      fun adj' w'' hconfines hvars => ⟨hgrows.trans hconfines.grows, fun var hvar => ?_⟩
    rcases hvars var hvar with hold | rfl
    · exact htotals var hold
    · exact hmem
  · refine .bind (literal_gives_node (hg.grows hend.1) 0.0) fun zero w₆ _ hzero => .pure ?_
    refine List.forall₂_map_right_iff.mpr (List.forall₂_same.mpr fun var _ hnot => ?_)
    have habsent : var ∉ adj.totals := fun hvar => hnot (horder.reached (hend.2 var hvar))
    rw [Std.HashMap.getElem?_eq_none habsent]
    exact hzero

end Reverse

section Products

variable {outputs : List Handle} {allowed : Handle → Nat → Prop}

theorem checkArguments_gives (outputs vars : List Handle) (w : Workspace) :
    Gives (Confines allowed) (checkArguments outputs vars) w fun _ w' =>
      w' = w ∧ ∀ out ∈ outputs, w.graph.Live out := by
  refine .bind (inspect_gives _ w) fun _ w₁ _ hread => ?_
  obtain ⟨rfl, hvalid⟩ := hread
  exact (inspect_gives _ w₁).weaken fun _ _ _ hread =>
    ⟨hread.1, validate_eq_ok_iff.mp hvalid⟩

theorem declareMany_confines (stem : String) (count : Nat) :
    Keeps (Confines allowed) (onGraph (BuildM.extend fun g => g.declareMany stem count)) :=
  onGraph_confines (BuildM.extend_keeps fun g => declareFrom_grows g stem 1 count)
    fun g => g.declareFrom_addsNo stem 1 count

/-- Seeds are given to the variables only. -/
theorem seedTangents_gives {pairs : List (Handle × Handle)} {tangents : Tangents}
    (hpairs : ∀ pair ∈ pairs, pair.1 ∈ vars) (htangents : ∀ x ∈ tangents, x ∈ vars) :
    Gives (Confines allowed) (seedTangents pairs tangents) w fun seeds _ =>
      ∀ x ∈ seeds, x ∈ vars := by
  induction pairs generalizing w tangents with
  | nil => exact .pure htangents
  | cons pair rest ih =>
      obtain ⟨hhead, hrest⟩ := List.forall_mem_cons.mp hpairs
      obtain ⟨var, seed⟩ := pair
      have hinsert : ∀ t : Handle, ∀ x ∈ tangents.insert var t, x ∈ vars := by
        intro t x hx
        rcases Std.HashMap.mem_insert.mp hx with hself | hold
        · exact eq_of_beq hself ▸ hhead
        · exact htangents x hold
      rw [seedTangents]
      cases tangents[var]? with
      | none => exact .bind ((Keeps.pure seed).gives w) fun t _ _ _ => ih hrest (hinsert t)
      | some before =>
          exact .bind ((operation_confines (by decide) [before, seed]).gives w)
            fun t _ _ _ => ih hrest (hinsert t)

/-- The product with the Jacobian is zero for an output that depends on none of the variables. -/
theorem jacobianTimes_prunes (hg : w.graph.WellFormed) :
    Gives (Confines (w.graph.Feeds {out | out ∈ outputs} vars)) (jacobianTimes outputs vars) w
      fun p w' => List.Forall₂
        (fun out t => w'.graph.ZeroUnless (w.graph.DependsOn vars out) t) outputs p.product := by
  refine .bind (checkArguments_gives outputs vars w) fun _ w₁ _ hread => ?_
  obtain ⟨rfl, hlive⟩ := hread
  refine .bind ((declareMany_confines "v" vars.length).gives w₁) fun seeds w₂ hw₂ _ => ?_
  refine .bind (seedTangents_gives (fun pair hpair => (List.of_mem_zip hpair).1)
    fun x hx => by simp at hx) fun tangents w₃ hw₃ hseeds => ?_
  have hgrows := hw₂.grows.trans hw₃.grows
  have hsweep := forward_prunes (hg.grows hgrows)
    (fun out hout => hgrows.extends.live (hlive out hout)) hseeds
  refine .bind (hsweep.imp fun w' hconfines => hconfines.mono fun node index hfeeds =>
    (hg.feeds_iff hgrows.extends hlive).mp hfeeds) fun product w₄ _ hproduct => .pure ?_
  refine ((List.forall₂_and_left _ _).mpr ⟨hlive, hproduct⟩).imp fun out t ht => ?_
  exact ht.2.congr (hg.dependsOn_iff hgrows.extends ht.1).mp

/-- The product with the transposed Jacobian is zero for a variable that no output depends on. -/
theorem transposeTimes_prunes (hg : w.graph.WellFormed) :
    Gives (Confines (w.graph.Feeds {out | out ∈ outputs} vars)) (transposeTimes outputs vars) w
      fun p w' => List.Forall₂ (fun var t =>
        w'.graph.ZeroUnless (∃ out ∈ outputs, w.graph.Reaches out var) t) vars p.product := by
  refine .bind (checkArguments_gives outputs vars w) fun _ w₁ _ hread => ?_
  obtain ⟨rfl, hlive⟩ := hread
  refine .bind ((declareMany_confines "w" outputs.length).gives w₁) fun seeds w₂ hw₂ _ => ?_
  have hext := hw₂.grows.extends
  have hsweep : Gives _ (reverse outputs seeds vars) w₂ _ :=
    reverse_prunes (hg.grows hw₂.grows) fun out hout => hext.live (hlive out hout)
  refine .bind (hsweep.imp fun w' hconfines => hconfines.mono fun node index hfeeds =>
    (hg.feeds_iff hext hlive).mp hfeeds) fun product w₃ _ hproduct => .pure ?_
  refine hproduct.imp fun var t ht => ht.congr ?_
  rintro ⟨out, hout, hreach⟩
  exact ⟨out, hout, (hg.reaches_iff hext (hlive out hout)).mp hreach⟩

end Products

end DiffM

end ExprGraph
