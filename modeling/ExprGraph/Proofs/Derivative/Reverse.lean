import Mathlib
import ExprGraph.Derivative.Reverse
import ExprGraph.Proofs.Derivative.Forward

/-!
# Reverse differentiation is correct

A reverse sweep passes nodes from users to operands.  At every moment the terms that wait at the
nodes that are left, each times the derivative of its node, and the adjoint collected at a variable
add up to the same value: the sum over the roots of their seeds times their derivatives.  At the end
no node is left.
-/

namespace ExprGraph

open Workspace

open ExprGraph.Graph

namespace DiffM

namespace Adjoints

/-- The sum of the terms that wait at a node. -/
def waiting (adj : Adjoints) (g : Graph) (r : Reading) (node : Handle) : r.R :=
  (((adj.terms[node]?).getD []).map (g.read r)).sum

/-- The adjoint collected at a variable. -/
def collected (adj : Adjoints) (g : Graph) (r : Reading) (var : Handle) : r.R :=
  ((adj.totals[var]?).map (g.read r)).getD 0

variable {adj : Adjoints} {g : Graph} {r : Reading}

theorem waiting_contribute (node term : Handle) (h : Handle) :
    (adj.contribute node term).waiting g r h =
      adj.waiting g r h + if h = node then g.read r term else 0 := by
  unfold waiting contribute
  simp only [Std.HashMap.getElem?_insert, beq_iff_eq]
  by_cases hself : node = h
  · subst hself
    simp
  · simp [hself, Ne.symm hself]

end Adjoints

/-- The state of a sweep: terms wait at active nodes that are left, adjoints are collected at nodes
that are not, and for every wanted variable the sum of both has the given value. -/
structure Balanced (g : Graph) (active : Std.HashSet Handle) (wanted : List Handle)
    (left : List Handle) (whole : ∀ r : Reading, Handle → r.R) (adj : Adjoints) (w : Workspace) :
    Prop where
  terms {h : Handle} {ts : List Handle} : adj.terms[h]? = some ts →
    h ∈ active ∧ h ∈ left ∧ ∀ t ∈ ts, w.graph.Live t
  totals {h t : Handle} : adj.totals[h]? = some t → h ∉ left ∧ w.graph.Live t
  sum : w.graph.folds = false → ∀ r, ∀ var ∈ wanted,
    ∑ h ∈ left.toFinset, adj.waiting w.graph r h * g.derivativeOf h var r +
      adj.collected w.graph r var = whole r var

namespace Balanced

variable {g : Graph} {active : Std.HashSet Handle} {wanted left : List Handle}
  {whole whole' : ∀ r : Reading, Handle → r.R} {adj : Adjoints} {w w' : Workspace}

theorem congr (hbalanced : Balanced g active wanted left whole adj w)
    (hwhole : w.graph.folds = false → ∀ r, ∀ var ∈ wanted, whole r var = whole' r var) :
    Balanced g active wanted left whole' adj w :=
  ⟨hbalanced.terms, hbalanced.totals, fun hfolds r var hvar =>
    (hbalanced.sum hfolds r var hvar).trans (hwhole hfolds r var hvar)⟩

theorem progress (hbalanced : Balanced g active wanted left whole adj w) (hw : w.Ready)
    (hprogress : w.Progress w') : Balanced g active wanted left whole adj w' := by
  have hext := hprogress.grows.extends
  have hread : ∀ {r : Reading} {t : Handle}, w.graph.Live t →
      w'.graph.read r t = w.graph.read r t :=
    fun hlive => hw.graph.read_extends hprogress.ready.graph hext hlive
  constructor
  · intro h ts hts
    obtain ⟨hactive, hleft, hlive⟩ := hbalanced.terms hts
    exact ⟨hactive, hleft, fun t ht => hext.live (hlive t ht)⟩
  · intro h t ht
    obtain ⟨hleft, hlive⟩ := hbalanced.totals ht
    exact ⟨hleft, hext.live hlive⟩
  · intro hfolds r var hvar
    rw [hext.folds] at hfolds
    rw [← hbalanced.sum hfolds r var hvar]
    congr 1
    · apply Finset.sum_congr rfl
      intro h _
      congr 1
      unfold Adjoints.waiting
      cases hts : adj.terms[h]? with
      | none => rfl
      | some ts =>
          obtain ⟨-, -, hlive⟩ := hbalanced.terms hts
          exact congrArg List.sum (List.map_congr_left fun t ht => hread (hlive t ht))
    · unfold Adjoints.collected
      cases ht : adj.totals[var]? with
      | none => rfl
      | some t => exact hread (hbalanced.totals ht).2

/-- A term that is added counts with the derivative of its node. -/
theorem contribute (hbalanced : Balanced g active wanted left whole adj w) {node term : Handle}
    {f : ∀ r : Reading, r.R} (hactive : node ∈ active) (hleft : node ∈ left)
    (hterm : w.graph.Denotes term f) :
    Balanced g active wanted left (fun r var => whole r var + f r * g.derivativeOf node var r)
      (adj.contribute node term) w where
  terms {h ts} hts := by
    change (adj.terms.insert node _)[h]? = some ts at hts
    rw [Std.HashMap.getElem?_insert] at hts
    split at hts
    · next hself =>
      obtain rfl := eq_of_beq hself
      obtain rfl := Option.some.inj hts
      refine ⟨hactive, hleft, fun t ht => ?_⟩
      rcases List.mem_append.mp ht with hold | hnew
      · cases hfound : adj.terms[node]? with
        | none =>
            rw [hfound] at hold
            exact absurd hold List.not_mem_nil
        | some ts =>
            rw [hfound] at hold
            exact (hbalanced.terms hfound).2.2 t hold
      · exact List.mem_singleton.mp hnew ▸ hterm.1
    · exact hbalanced.terms hts
  totals := hbalanced.totals
  sum hfolds r var hvar := by
    have hsum := hbalanced.sum hfolds r var hvar
    simp only [Adjoints.waiting_contribute, add_mul, ite_mul, zero_mul, Finset.sum_add_distrib,
      Finset.sum_ite_eq', List.mem_toFinset, if_pos hleft, hterm.2 hfolds r]
    rw [← hsum]
    change _ + adj.collected w.graph r var = _
    ring

/-- A node at which nothing waits is passed. -/
theorem pass {node : Handle} (hbalanced : Balanced g active wanted (node :: left) whole adj w)
    (hnew : node ∉ left) (hnone : adj.terms[node]? = none) :
    Balanced g active wanted left whole adj w where
  terms {h ts} hts := by
    obtain ⟨hactive, hmem, hlive⟩ := hbalanced.terms hts
    refine ⟨hactive, (List.mem_cons.mp hmem).resolve_left ?_, hlive⟩
    rintro rfl
    cases hnone.symm.trans hts
  totals ht := by
    obtain ⟨hmem, hlive⟩ := hbalanced.totals ht
    exact ⟨fun hleft => hmem (List.mem_cons_of_mem node hleft), hlive⟩
  sum hfolds r var hvar := by
    rw [← hbalanced.sum hfolds r var hvar, List.toFinset_cons,
      Finset.sum_insert (by simpa using hnew)]
    simp [Adjoints.waiting, hnone]

/-- The terms that wait at a node are taken off. -/
theorem take {node : Handle} {ts : List Handle}
    (hbalanced : Balanced g active wanted (node :: left) whole adj w) (hnew : node ∉ left)
    (hts : adj.terms[node]? = some ts) :
    Balanced g active wanted left
      (fun r var => whole r var - (ts.map (w.graph.read r)).sum * g.derivativeOf node var r)
      { adj with terms := adj.terms.erase node } w where
  terms {h ts'} hts' := by
    change (adj.terms.erase node)[h]? = some ts' at hts'
    rw [Std.HashMap.getElem?_erase] at hts'
    split at hts'
    · cases hts'
    · next hself =>
      obtain ⟨hactive, hmem, hlive⟩ := hbalanced.terms hts'
      refine ⟨hactive, (List.mem_cons.mp hmem).resolve_left ?_, hlive⟩
      rintro rfl
      exact hself (beq_self_eq_true _)
  totals ht := by
    obtain ⟨hmem, hlive⟩ := hbalanced.totals ht
    exact ⟨fun hleft => hmem (List.mem_cons_of_mem node hleft), hlive⟩
  sum hfolds r var hvar := by
    rw [← hbalanced.sum hfolds r var hvar, List.toFinset_cons,
      Finset.sum_insert (by simpa using hnew)]
    have hself : adj.waiting w.graph r node = (ts.map (w.graph.read r)).sum := by
      rw [Adjoints.waiting, hts, Option.getD_some]
    have hothers : ∀ h ∈ left.toFinset,
        Adjoints.waiting { adj with terms := adj.terms.erase node } w.graph r h *
          g.derivativeOf h var r = adj.waiting w.graph r h * g.derivativeOf h var r := by
      intro h hh
      have hne : node ≠ h := by
        rintro rfl
        exact hnew (List.mem_toFinset.mp hh)
      simp [Adjoints.waiting, Std.HashMap.getElem?_erase, hne]
    rw [Finset.sum_congr rfl hothers, hself]
    change _ + adj.collected w.graph r var = _
    ring

/-- What is collected at a variable counts for that variable alone. -/
theorem collect {node total : Handle} {f : ∀ r : Reading, r.R}
    (hbalanced : Balanced g active wanted left whole adj w) (hnew : node ∉ left)
    (hnone : adj.totals[node]? = none) (htotal : w.graph.Denotes total f) :
    Balanced g active wanted left (fun r var => whole r var + f r * r.direction var node)
      { adj with totals := adj.totals.insert node total } w where
  terms := hbalanced.terms
  totals {h t} ht := by
    change (adj.totals.insert node total)[h]? = some t at ht
    rw [Std.HashMap.getElem?_insert] at ht
    split at ht
    · next hself =>
      obtain rfl := eq_of_beq hself
      obtain rfl := Option.some.inj ht
      exact ⟨hnew, htotal.1⟩
    · exact hbalanced.totals ht
  sum hfolds r var hvar := by
    rw [← hbalanced.sum hfolds r var hvar, add_assoc]
    congr 1
    unfold Adjoints.collected
    rw [Std.HashMap.getElem?_insert, Reading.direction, Pi.single_apply]
    by_cases hself : node = var
    · subst hself
      simp [hnone, htotal.2 hfolds r]
    · simp [hself]

/-- At the start nothing waits and nothing has been collected. -/
theorem start : Balanced g active wanted left (fun _ _ => 0) {} w where
  terms hts := by simp at hts
  totals ht := by simp at ht
  sum _ r var _ := by simp [Adjoints.waiting, Adjoints.collected]

/-- When no node is left, what has been collected at a variable is the whole. -/
theorem total_denotes (hbalanced : Balanced g active wanted [] whole adj w) {var : Handle}
    (hvar : var ∈ wanted) {zero : Handle} (hzero : w.graph.Denotes zero fun _ => 0) :
    w.graph.Denotes ((adj.totals[var]?).getD zero) fun r => whole r var := by
  have hcollected : w.graph.folds = false → ∀ r,
      adj.collected w.graph r var = whole r var := by
    intro hfolds r
    have hsum := hbalanced.sum hfolds r var hvar
    rwa [List.toFinset_nil, Finset.sum_empty, zero_add] at hsum
  cases hfound : adj.totals[var]? with
  | none =>
      apply hzero.congr
      intro hfolds r
      rw [← hcollected hfolds r, Adjoints.collected, hfound]
      rfl
  | some t =>
      constructor
      · exact (hbalanced.totals hfound).2
      · intro hfolds r
        apply Eq.trans ?_ (hcollected hfolds r)
        rw [Adjoints.collected, hfound]
        rfl

end Balanced

/-- The active nodes are among those of the order, and none of the others depends on a wanted
variable. -/
structure Separates (g : Graph) (wanted before : List Handle) (active : Std.HashSet Handle) :
    Prop where
  mem {h : Handle} : h ∈ active → h ∈ before
  still {h : Handle} : h ∈ before → h ∉ active →
    ∀ r : Reading, ∀ var ∈ wanted, g.derivativeOf h var r = 0

/-- A node whose operands do not depend on a variable does not either. -/
theorem derivativeOf_app_eq_zero {g : Graph} (hg : g.WellFormed) {h var : Handle}
    {app : Application} {r : Reading} (hn : g.node h = .ok (.app app))
    (hargs : ∀ a ∈ app.args, g.derivativeOf a var r = 0) : g.derivativeOf h var r = 0 := by
  have hzero : app.args.map (g.tangent r (r.direction var)) = app.args.map fun _ => 0 :=
    List.map_congr_left hargs
  rw [derivativeOf, hg.tangent_of_app hn, hzero, r.interp.chain_zero]

theorem Separates.start {g : Graph} {wanted : List Handle} : Separates g wanted [] {} :=
  ⟨fun hh => by simp at hh, fun hh => absurd hh List.not_mem_nil⟩

theorem Separates.step {g : Graph} {wanted before : List Handle} {active : Std.HashSet Handle}
    {node : Handle} (hseparates : Separates g wanted before active) {isActive : Bool}
    (hstill : isActive = false →
      ∀ r : Reading, ∀ var ∈ wanted, g.derivativeOf node var r = 0) :
    Separates g wanted (before ++ [node]) (if isActive then active.insert node else active) := by
  cases isActive with
  | true =>
      constructor
      · intro h hh
        rcases Std.HashSet.mem_insert.mp hh with hself | hold
        · exact List.mem_append_right _ (List.mem_singleton.mpr (eq_of_beq hself).symm)
        · exact List.mem_append_left _ (hseparates.mem hold)
      · intro h hh hout
        have hboth : ¬ (node = h ∨ h ∈ active) := by
          simpa [Std.HashSet.mem_insert] using hout
        rcases List.mem_append.mp hh with hold | hself
        · exact hseparates.still hold fun hactive => hboth (.inr hactive)
        · exact absurd (.inl (List.mem_singleton.mp hself).symm) hboth
  | false =>
      constructor
      · exact fun hh => List.mem_append_left _ (hseparates.mem hh)
      · intro h hh hout
        rcases List.mem_append.mp hh with hold | hself
        · exact hseparates.still hold hout
        · rw [List.mem_singleton.mp hself]
          exact hstill rfl

/-- The nodes that take part in a reverse sweep. -/
theorem activeNodes_separates {g : Graph} (hg : g.WellFormed) {wanted before rest : List Handle}
    {active : Std.HashSet Handle} (hseparates : Separates g wanted before active)
    (hlive : ∀ h ∈ rest, g.Live h)
    (hfirst : g.OperandsFirst (fun _ => false) (before ++ rest)) :
    ∃ result, activeNodes g wanted rest active = .ok result ∧
      Separates g wanted (before ++ rest) result := by
  induction rest generalizing before active with
  | nil => exact ⟨active, rfl, by rwa [List.append_nil]⟩
  | cons node rest ih =>
      obtain ⟨⟨n, hn⟩, hrest⟩ := List.forall_mem_cons.mp hlive
      have hargs : ∀ a ∈ n.args, a ∈ before := by
        intro a ha
        rw [← argsOf_of_node hn] at ha
        exact (hfirst before node rest rfl a ha).resolve_left Bool.false_ne_true
      have hsplit : before ++ node :: rest = (before ++ [node]) ++ rest := by simp
      rw [hsplit] at hfirst ⊢
      rw [activeNodes, hn]
      refine ih (hseparates.step fun hinactive r var hvar => ?_) hrest hfirst
      cases n with
      | var id name =>
          have hne : node ≠ var := by
            rintro rfl
            simp [hvar] at hinactive
          rw [derivativeOf, tangent_of_var hn, Reading.direction, Pi.single_apply, if_neg hne]
      | lit v => rw [derivativeOf, tangent_of_lit hn]
      | app app =>
          apply derivativeOf_app_eq_zero hg hn
          intro a ha
          refine hseparates.still (hargs a ha) (fun hactive => ?_) r var hvar
          have hany : app.args.any active.contains = true :=
            List.any_eq_true.mpr ⟨a, ha, Std.HashSet.contains_iff_mem.mpr hactive⟩
          exact Bool.false_ne_true (hinactive.symm.trans hany)

/-- The seeds that wait at the roots before a sweep. -/
theorem seedAdjoints_balanced {g : Graph} {active : Std.HashSet Handle}
    {wanted order left : List Handle} (hseparates : Separates g wanted order active)
    {pairs : List (Handle × Handle)} {whole : ∀ r : Reading, Handle → r.R} {adj : Adjoints}
    {w : Workspace} (hbalanced : Balanced g active wanted left whole adj w)
    (hpairs : ∀ pair ∈ pairs, pair.1 ∈ order ∧ pair.1 ∈ left ∧ w.graph.Live pair.2) :
    Balanced g active wanted left
      (fun r var => whole r var +
        (pairs.map fun pair => w.graph.read r pair.2 * g.derivativeOf pair.1 var r).sum)
      (seedAdjoints w.graph active pairs adj) w := by
  induction pairs generalizing whole adj with
  | nil => exact hbalanced.congr fun _ r var _ => (add_zero _).symm
  | cons pair rest ih =>
      obtain ⟨⟨horder, hleft, hlive⟩, hrest⟩ := List.forall_mem_cons.mp hpairs
      obtain ⟨root, seed⟩ := pair
      have hfirst : Balanced g active wanted left
          (fun r var => whole r var + w.graph.read r seed * g.derivativeOf root var r)
          (if active.contains root && !w.graph.isZero seed then adj.contribute root seed else adj)
          w := by
        split
        · next hboth =>
          have hactive : root ∈ active := Std.HashSet.contains_iff_mem.mp
            ((Bool.and_eq_true _ _).mp hboth).1
          exact hbalanced.contribute hactive hleft (.of_live hlive)
        · next hneither =>
          apply hbalanced.congr
          intro _ r var hvar
          by_cases hactive : root ∈ active
          · have hzero : w.graph.isZero seed = true := by
              simpa [Std.HashSet.contains_iff_mem.mpr hactive] using hneither
            rw [read_of_isZero hzero, zero_mul, add_zero]
          · rw [hseparates.still horder hactive r var hvar, mul_zero, add_zero]
      rw [seedAdjoints]
      apply (ih hfirst hrest).congr
      intro _ r var _
      rw [List.map_cons, List.sum_cons, add_assoc]

variable {w w' : Workspace} {active : Std.HashSet Handle} {wanted left : List Handle}

/-- A node passes its adjoint on to its operands, each time multiplied by a slope. -/
theorem distribute_succeeds {node adjoint : Handle} {app : Application}
    {whole : ∀ r : Reading, Handle → r.R} {f : ∀ r : Reading, r.R} (hw : w.Ready)
    (hcurrent : w.Current) (hn : w.graph.node node = .ok (.app app)) {order : List Handle}
    (hseparates : Separates w.graph wanted order active)
    (horder : ∀ a ∈ app.args, a ∈ order) (hleft : ∀ a ∈ app.args, a ∈ left)
    {passed rest : List Handle} (hsplit : app.args = passed ++ rest) {adj : Adjoints}
    (hprogress : w.Progress w') (hadjoint : w'.graph.Denotes adjoint f)
    (hbalanced : Balanced w.graph active wanted left whole adj w') :
    Succeeds Advances (distribute active node app adjoint passed.length rest adj) w'
      fun adj' w'' => Balanced w.graph active wanted left
        (fun r var => whole r var + f r * r.interp.chain app.op (app.args.map (w.graph.read r))
          passed.length (rest.map fun a => w.graph.derivativeOf a var r)) adj' w'' := by
  induction rest generalizing passed adj w' whole with
  | nil =>
      refine .pure (hbalanced.congr fun _ r var _ => ?_)
      rw [List.map_nil, Interpretation.chain, mul_zero, add_zero]
  | cons arg rest ih =>
      have hw' := hprogress.ready
      have hmem : arg ∈ app.args := by simp [hsplit]
      have hsplit' : app.args = (passed ++ [arg]) ++ rest := by simp [hsplit]
      have hlength : passed.length + 1 = (passed ++ [arg]).length := by simp
      have hindex : passed.length < app.args.length := by simp [hsplit]
      -- the sum for the operands from here on, with what this one adds
      have hsum : ∀ (r : Reading) (var : Handle) (base : r.R),
          base + f r * w.graph.slopeOf app passed.length r * w.graph.derivativeOf arg var r +
            f r * r.interp.chain app.op (app.args.map (w.graph.read r)) (passed ++ [arg]).length
              (rest.map fun a => w.graph.derivativeOf a var r) =
          base + f r * r.interp.chain app.op (app.args.map (w.graph.read r)) passed.length
            ((arg :: rest).map fun a => w.graph.derivativeOf a var r) := by
        intro r var base
        rw [List.map_cons, Interpretation.chain, ← hlength, slopeOf]
        ring
      rw [distribute, hlength]
      split
      · next hcontains =>
        have hactive : arg ∈ active := Std.HashSet.contains_iff_mem.mp hcontains
        refine slope_bind hw' (hprogress.current hcurrent) (hprogress.grows.extends.node_eq hn)
          hindex ?_ ?_
        · intro w₁ hstep₁ hslope
          apply (ih hsplit' (hprogress.trans hstep₁) (hadjoint.grows hw'.graph hstep₁.grows)
            (hbalanced.progress hw' hstep₁)).weaken
          intro adj' w'' hadv hb
          apply hb.congr
          intro hfolds r var _
          have hzero := hslope ((hadv hstep₁.ready).grows.extends.folds ▸ hfolds) r
          rw [hw.graph.slopeOf_grows hprogress.grows fun a ha => hw.graph.live hn ha] at hzero
          rw [← hsum, hzero, mul_zero, zero_mul, add_zero]
        · intro p w₁ hstep₁ hp
          have hadjoint₁ := hadjoint.grows hw'.graph hstep₁.grows
          have hbalanced₁ := hbalanced.progress hw' hstep₁
          rw [hw.graph.slopeOf_grows hprogress.grows fun a ha => hw.graph.live hn ha] at hp
          apply Succeeds.bind (onGraph_succeeds (BuildM.mul_succeeds hstep₁.ready.graph hp
            hadjoint₁))
          intro term w₂ hadv₂ hterm
          have hstep₂ := hadv₂ hstep₁.ready
          apply (ih hsplit' ((hprogress.trans hstep₁).trans hstep₂)
            (hadjoint₁.grows hstep₁.ready.graph hstep₂.grows)
            ((hbalanced₁.progress hstep₁.ready hstep₂).contribute hactive (hleft arg hmem)
              hterm)).weaken
          intro adj' w'' _ hb
          apply hb.congr
          intro _ r var _
          rw [← hsum, mul_comm (w.graph.slopeOf app passed.length r)]
      · next hinactive =>
        apply (ih hsplit' hprogress hadjoint hbalanced).weaken
        intro adj' w'' _ hb
        apply hb.congr
        intro _ r var hvar
        have hstill := hseparates.still (horder arg hmem)
          (fun hactive => hinactive (Std.HashSet.contains_iff_mem.mpr hactive)) r var hvar
        rw [← hsum, hstill, mul_zero, add_zero]

/-- Passing one node of a reverse sweep keeps the balance. -/
theorem sweepReverse_succeeds {node : Handle} {whole : ∀ r : Reading, Handle → r.R} (hw : w.Ready)
    (hcurrent : w.Current) (hlive : w.graph.Live node) {order : List Handle}
    (hseparates : Separates w.graph wanted order active) (hnew : node ∉ left)
    (hargs : ∀ a ∈ w.graph.argsOf node, a ∈ order ∧ a ∈ left) {adj : Adjoints}
    (hprogress : w.Progress w')
    (hbalanced : Balanced w.graph active wanted (node :: left) whole adj w') :
    Succeeds Advances (sweepReverse active adj node) w' fun adj' w'' =>
      Balanced w.graph active wanted left whole adj' w'' := by
  have hw' := hprogress.ready
  unfold sweepReverse
  split
  · next hnone => exact .pure (hbalanced.pass hnew hnone)
  · next ts hts =>
    have htaken := hbalanced.take hnew hts
    apply Succeeds.bind (onGraph_succeeds (BuildM.sum_succeeds hw'.graph
      (denotes_list_read (hbalanced.terms hts).2.2)))
    intro adjoint w₁ hadv₁ hsum
    have hstep₁ := hadv₁ hw'
    have hprogress₁ := hprogress.trans hstep₁
    have hadjoint : w₁.graph.Denotes adjoint fun r => (ts.map (w'.graph.read r)).sum :=
      hsum.congr fun _ r => by rw [List.map_map]; rfl
    have hbalanced₁ := htaken.progress hw' hstep₁
    obtain ⟨n, hn⟩ := hlive
    apply Succeeds.bind_eq (inspect_eq (hprogress₁.grows.extends.node_eq hn))
    cases n with
    | var id name =>
        have hnone : adj.totals[node]? = none := by
          cases hfound : adj.totals[node]? with
          | none => rfl
          | some t => exact absurd List.mem_cons_self (hbalanced.totals hfound).1
        refine .pure ((hbalanced₁.collect hnew hnone hadjoint).congr fun _ r var _ => ?_)
        rw [derivativeOf, tangent_of_var hn, sub_add_cancel]
    | lit v =>
        refine .pure (hbalanced₁.congr fun _ r var _ => ?_)
        rw [derivativeOf, tangent_of_lit hn, mul_zero, sub_zero]
    | app app =>
        rw [argsOf_of_node hn] at hargs
        have hsplit : app.args = [] ++ app.args := rfl
        apply (distribute_succeeds hw hcurrent hn hseparates (fun a ha => (hargs a ha).1)
          (fun a ha => (hargs a ha).2) hsplit hprogress₁ hadjoint
          hbalanced₁).weaken
        intro adj' w'' _ hb
        apply hb.congr
        intro _ r var _
        have hchain : w.graph.derivativeOf node var r =
            r.interp.chain app.op (app.args.map (w.graph.read r)) 0
              (app.args.map fun a => w.graph.derivativeOf a var r) :=
          hw.graph.tangent_of_app hn
        rw [hchain]
        exact sub_add_cancel _ _

/-- Passing all nodes from users to operands keeps the balance. -/
theorem sweepReverse_all_succeeds {whole : ∀ r : Reading, Handle → r.R} (hw : w.Ready)
    (hcurrent : w.Current) {order : List Handle} (hlive : ∀ h ∈ order, w.graph.Live h)
    (hnodup : order.Nodup) (hfirst : w.graph.OperandsFirst (fun _ => false) order)
    (hseparates : Separates w.graph wanted order active) {adj : Adjoints}
    (hbalanced : Balanced w.graph active wanted order.reverse whole adj w) :
    Succeeds Advances (order.reverse.foldlM (sweepReverse active) adj) w fun adj' w' =>
      Balanced w.graph active wanted [] whole adj' w' := by
  refine (Succeeds.foldlM (Q := fun _ left adj w' => w.Progress w' ∧
    Balanced w.graph active wanted left whole adj w') ?_
    ⟨hw.progress_refl, hbalanced⟩).weaken fun _ _ _ hend => hend.2
  rintro passed node left adj w' hsplit ⟨hprogress, hbalanced⟩
  have horder : order = left.reverse ++ node :: passed.reverse := by
    rw [← List.reverse_reverse order, hsplit]
    simp
  have hnew : node ∉ left := by
    intro hmem
    rw [horder] at hnodup
    exact (List.nodup_append.mp hnodup).2.2 node (List.mem_reverse.mpr hmem) node
      List.mem_cons_self rfl
  have hargs : ∀ a ∈ w.graph.argsOf node, a ∈ order ∧ a ∈ left := by
    intro a ha
    have hbefore := (hfirst _ _ _ horder a ha).resolve_left Bool.false_ne_true
    refine ⟨?_, List.mem_reverse.mp hbefore⟩
    rw [horder]
    exact List.mem_append_left _ hbefore
  apply (sweepReverse_succeeds hw hcurrent (hlive node (by simp [horder])) hseparates hnew hargs
    hprogress hbalanced).weaken
  intro adj' w'' hadv' hbalanced'
  exact ⟨hprogress.trans (hadv' hprogress.ready), hbalanced'⟩

/-- A reverse sweep gives every variable the sum of the seeds of the roots times their derivatives
by it. -/
theorem reverse_succeeds {roots seeds vars : List Handle} (hw : w.Ready)
    (hroots : ∀ root ∈ roots, w.graph.Live root) (hseeds : ∀ seed ∈ seeds, w.graph.Live seed) :
    Succeeds Advances (reverse roots seeds vars) w fun totals w' =>
      List.Forall₂ w'.graph.Denotes totals (vars.map fun var r =>
        ((roots.zip seeds).map fun pair =>
          w.graph.read r pair.2 * w.graph.derivativeOf pair.1 var r).sum) := by
  unfold reverse
  apply Succeeds.bind sync_succeeds
  rintro _ w₁ hadv ⟨hcurrent, hgraph, _⟩
  have hw₁ := (hadv hw).ready
  rw [← hgraph] at hroots hseeds ⊢
  obtain ⟨order, hrun, horder⟩ := hw₁.graph.order_eq hroots
  apply Succeeds.bind_eq (consult_eq hrun)
  have hnobody : Separates w₁.graph vars [] {} := .start
  obtain ⟨active, hactive, hseparates⟩ :=
    activeNodes_separates hw₁.graph hnobody (fun h hh => horder.live hh) horder.operandsFirst
  rw [List.nil_append] at hseparates
  refine .bind_eq (inspect_eq hactive) (.bind_eq (consult_eq rfl) ?_)
  have hpairs : ∀ pair ∈ roots.zip seeds,
      pair.1 ∈ order ∧ pair.1 ∈ order.reverse ∧ w₁.graph.Live pair.2 := by
    intro pair hpair
    obtain ⟨hroot, hseed⟩ := List.of_mem_zip hpair
    have hmem := horder.mem hroot
    exact ⟨hmem, List.mem_reverse.mpr hmem, hseeds _ hseed⟩
  have hseeded := seedAdjoints_balanced hseparates Balanced.start hpairs
  simp only [zero_add] at hseeded
  apply Succeeds.bind (sweepReverse_all_succeeds hw₁ hcurrent (fun h hh => horder.live hh)
    horder.nodup horder.operandsFirst hseparates hseeded)
  intro adj w₂ hadv₂ hend
  have hw₂ := (hadv₂ hw₁).ready
  apply Succeeds.bind (literal_succeeds hw₂ 0.0)
  intro zero w₃ hadv₃ hzero
  have hzero' : w₃.graph.Denotes zero fun _ => 0 := hzero.congr fun _ r => r.lawful.literal_zero_pos
  refine .pure (List.forall₂_map_left_iff.mpr (List.forall₂_map_right_iff.mpr
    (List.forall₂_same.mpr fun var hvar => ?_)))
  exact (hend.progress hw₂ (hadv₃ hw₂)).total_denotes hvar hzero'

end DiffM

end ExprGraph
