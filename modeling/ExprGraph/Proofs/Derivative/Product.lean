import Mathlib
import ExprGraph.Derivative.Product
import ExprGraph.Proofs.Derivative.Jacobian
import ExprGraph.Proofs.Derivative.Reverse

/-!
# Jacobian products are correct

On a ready workspace the products of a Jacobian, of its transpose and of a Hessian with fresh seeds
are built without failing.  Their entries have the values of the sums that define the products,
whatever the seeds are.
-/

namespace ExprGraph

open Workspace

open ExprGraph.Graph

namespace Graph

/-- Different variables that have been made since an earlier state. -/
structure FreshVariables (before after : Graph) (hs : List Handle) : Prop where
  isVariable : ∀ h ∈ hs, after.IsVariable h
  new : ∀ h ∈ hs, ¬before.Live h
  nodup : hs.Nodup

theorem FreshVariables.grows {g g₁ g₂ g₃ : Graph} {hs : List Handle}
    (hfresh : g₁.FreshVariables g₂ hs) (hbefore : g.Grows g₁) (hafter : g₂.Grows g₃) :
    g.FreshVariables g₃ hs where
  isVariable h hh := hafter.extends.isVariable (hfresh.isVariable h hh)
  new h hh hlive := hfresh.new h hh (hbefore.extends.live hlive)
  nodup := hfresh.nodup

theorem isVariable_declare (g : Graph) (name : String) :
    (g.declare name).2.IsVariable (g.declare name).1 :=
  ⟨_, _, g.node_push_self _⟩

/-- New variables are as many as asked for. -/
theorem declareFrom_fresh (g : Graph) (stem : String) (first count : Nat) :
    (g.declareFrom stem first count).1.length = count ∧
      g.FreshVariables (g.declareFrom stem first count).2 (g.declareFrom stem first count).1 := by
  induction count generalizing g first with
  | zero =>
      exact ⟨rfl, fun h hh => absurd hh List.not_mem_nil, fun h hh => absurd hh List.not_mem_nil,
        List.nodup_nil⟩
  | succ count ih =>
      obtain ⟨hlength, hrest⟩ := ih (g.declare (stem ++ toString first)).2 (first + 1)
      have hvar := g.isVariable_declare (stem ++ toString first)
      have hgrows := (Step.declare (g := g) (stem ++ toString first)).grows
      refine ⟨congrArg Nat.succ hlength, ?_, ?_, ?_⟩
      · intro h hh
        rcases List.mem_cons.mp hh with rfl | hlater
        · exact (declareFrom_grows _ stem (first + 1) count).extends.isVariable hvar
        · exact hrest.isVariable h hlater
      · intro h hh
        rcases List.mem_cons.mp hh with rfl | hlater
        · exact g.not_live_push_self (.var g.nextVariable (stem ++ toString first))
        · exact fun hlive => hrest.new h hlater (hgrows.extends.live hlive)
      · exact List.nodup_cons.mpr ⟨fun hlater => hrest.new _ hlater hvar.live, hrest.nodup⟩

end Graph

namespace DiffM

variable {w : Workspace}

/-- The seeds of a product are as many fresh variables as asked for. -/
theorem declareMany_succeeds (w : Workspace) (stem : String) (count : Nat) :
    Succeeds Advances (onGraph (BuildM.extend fun g => g.declareMany stem count)) w fun hs w' =>
      hs.length = count ∧ w.graph.FreshVariables w'.graph hs := by
  have hdeclare : Succeeds Graph.Grows (BuildM.extend fun g => g.declareMany stem count) w.graph
      fun hs g' => hs.length = count ∧ w.graph.FreshVariables g' hs :=
    .of_eq rfl (declareFrom_grows w.graph stem 1 count) (w.graph.declareFrom_fresh stem 1 count)
  exact onGraph_succeeds hdeclare

theorem checkArguments_eq {outputs vars : List Handle}
    (houtputs : ∀ out ∈ outputs, w.graph.Live out) (hvars : ∀ var ∈ vars, w.graph.IsVariable var) :
    checkArguments outputs vars w = .ok () w := by
  unfold checkArguments
  rw [bind_of_ok (inspect_eq (validate_eq_ok_iff.mpr houtputs))]
  exact inspect_eq (expectVariables_eq_ok_iff.mpr hvars)

/-- Every variable gets the sum of the seeds that are listed with it. -/
theorem seedTangents_succeeds {pairs : List (Handle × Handle)} {tangents : Tangents}
    {base : ∀ r : Reading, Handle → r.R} (hw : w.Ready)
    (hpairs : ∀ pair ∈ pairs, w.graph.IsVariable pair.2)
    (htangents : ∀ x, w.graph.DenotesTotal tangents[x]? fun r => base r x) :
    Succeeds Advances (seedTangents pairs tangents) w fun result w' =>
      ∀ x, w'.graph.DenotesTotal result[x]? fun r => base r x +
        (pairs.map fun pair => r.assign pair.2 * r.direction pair.1 x).sum := by
  induction pairs generalizing tangents base w with
  | nil =>
      apply Succeeds.pure
      intro x
      have hsame : (fun r : Reading => base r x) = fun r => base r x +
          (([] : List (Handle × Handle)).map fun pair =>
            r.assign pair.2 * r.direction pair.1 x).sum := by
        funext r
        exact (add_zero _).symm
      rw [← hsame]
      exact htangents x
  | cons pair rest ih =>
      obtain ⟨var, seed⟩ := pair
      obtain ⟨⟨id, name, hn⟩, hrest⟩ := List.forall_mem_cons.mp hpairs
      have hseed : w.graph.Denotes seed fun r => r.assign seed :=
        ⟨⟨_, hn⟩, fun _ r => read_of_var hn⟩
      rw [seedTangents]
      apply add_term_bind hw (htangents var) hseed
      intro t w' hadv ht
      have hprogress := hadv hw
      have htangents' : ∀ x, w'.graph.DenotesTotal (tangents.insert var t)[x]? fun r =>
          base r x + r.assign seed * r.direction var x := by
        intro x
        rw [Std.HashMap.getElem?_insert]
        by_cases hself : var = x
        · subst hself
          rw [if_pos (beq_self_eq_true _)]
          apply Denotes.congr ht
          intro _ r
          rw [Reading.direction, Pi.single_eq_same, mul_one]
        · rw [if_neg (by simpa using hself)]
          have hsame : (fun r : Reading => base r x) = fun r =>
              base r x + r.assign seed * r.direction var x := by
            funext r
            rw [Reading.direction, Pi.single_eq_of_ne (Ne.symm hself), mul_zero, add_zero]
          rw [← hsame]
          exact (htangents x).grows hw.graph hprogress.grows
      have hrest' : ∀ pair ∈ rest, w'.graph.IsVariable pair.2 :=
        fun pair hpair => hprogress.grows.extends.isVariable (hrest pair hpair)
      apply (ih hprogress.ready hrest' htangents').weaken
      intro result w'' _ hresult x
      have hsum := hresult x
      simp only [List.map_cons, List.sum_cons, ← add_assoc]
      exact hsum

/-- The product of the Jacobian with its seeds. -/
theorem jacobianTimes_succeeds {outputs vars : List Handle} (hw : w.Ready)
    (houtputs : ∀ out ∈ outputs, w.graph.Live out) (hvars : ∀ var ∈ vars, w.graph.IsVariable var) :
    Succeeds Advances (jacobianTimes outputs vars) w fun p w' =>
      p.seeds.length = vars.length ∧ w.graph.FreshVariables w'.graph p.seeds ∧
      List.Forall₂ w'.graph.Denotes p.product (outputs.map fun out r =>
        ((vars.zip p.seeds).map fun pair =>
          r.assign pair.2 * w.graph.derivativeOf out pair.1 r).sum) := by
  unfold jacobianTimes
  apply Succeeds.bind_eq (checkArguments_eq houtputs hvars)
  apply Succeeds.bind (declareMany_succeeds w "v" vars.length)
  rintro seeds w₁ hadv₁ ⟨hlength, hseeds⟩
  have hprogress₁ := hadv₁ hw
  have hpairs : ∀ pair ∈ vars.zip seeds, w₁.graph.IsVariable pair.2 :=
    fun pair hpair => hseeds.isVariable _ (List.of_mem_zip hpair).2
  have hnone : ∀ x : Handle, w₁.graph.DenotesTotal (({} : Tangents)[x]?) fun _ => 0 := by
    intro x
    rw [Std.HashMap.getElem?_empty]
    exact fun _ => rfl
  apply Succeeds.bind (seedTangents_succeeds hprogress₁.ready hpairs hnone)
  intro tangents w₂ hadv₂ htangents
  have hprogress₂ := hprogress₁.trans (hadv₂ hprogress₁.ready)
  have houtputs₂ : ∀ out ∈ outputs, w₂.graph.Live out :=
    fun out hout => hprogress₂.grows.extends.live (houtputs out hout)
  apply Succeeds.bind (forward_succeeds hprogress₂.ready houtputs₂ htangents)
  intro product w₃ hadv₃ hproduct
  have hprogress₃ := hprogress₂.trans (hadv₃ hprogress₂.ready)
  have hlater := (hadv₂ hprogress₁.ready).trans (hadv₃ hprogress₂.ready)
  refine .pure ⟨hlength, hseeds.grows (refl w.graph) hlater.grows, ?_⟩
  have hvalues : (outputs.map fun out r => ((vars.zip seeds).map fun pair =>
      r.assign pair.2 * w.graph.derivativeOf out pair.1 r).sum) =
      outputs.map fun out (r : Reading) => w₂.graph.tangent r (fun x => 0 +
        ((vars.zip seeds).map fun pair => r.assign pair.2 * r.direction pair.1 x).sum) out := by
    apply List.map_congr_left
    intro out hout
    funext r
    simp only [zero_add]
    have hsum := hprogress₂.ready.graph.tangent_sum (r := r) (vars.zip seeds)
      (fun pair => r.assign pair.2) (fun pair => r.direction pair.1) (houtputs₂ out hout)
    rw [hsum]
    refine congrArg List.sum (List.map_congr_left fun pair _ => ?_)
    rw [← hw.graph.derivativeOf_grows hprogress₂.grows (houtputs out hout)]
    rfl
  rw [hvalues]
  exact hproduct

/-- The product of the transposed Jacobian with its seeds. -/
theorem transposeTimes_succeeds {outputs vars : List Handle} (hw : w.Ready)
    (houtputs : ∀ out ∈ outputs, w.graph.Live out) (hvars : ∀ var ∈ vars, w.graph.IsVariable var) :
    Succeeds Advances (transposeTimes outputs vars) w fun p w' =>
      p.seeds.length = outputs.length ∧ w.graph.FreshVariables w'.graph p.seeds ∧
      List.Forall₂ w'.graph.Denotes p.product (vars.map fun var r =>
        ((outputs.zip p.seeds).map fun pair =>
          r.assign pair.2 * w.graph.derivativeOf pair.1 var r).sum) := by
  unfold transposeTimes
  apply Succeeds.bind_eq (checkArguments_eq houtputs hvars)
  apply Succeeds.bind (declareMany_succeeds w "w" outputs.length)
  rintro seeds w₁ hadv₁ ⟨hlength, hseeds⟩
  have hprogress₁ := hadv₁ hw
  apply Succeeds.bind (reverse_succeeds hprogress₁.ready
    (fun out hout => hprogress₁.grows.extends.live (houtputs out hout))
    fun seed hseed => (hseeds.isVariable seed hseed).live)
  intro product w₂ hadv₂ hproduct
  refine .pure ⟨hlength, hseeds.grows (refl w.graph) (hadv₂ hprogress₁.ready).grows, ?_⟩
  have hvalues : (vars.map fun var r => ((outputs.zip seeds).map fun pair =>
      r.assign pair.2 * w.graph.derivativeOf pair.1 var r).sum) =
      vars.map fun var r => ((outputs.zip seeds).map fun pair =>
        w₁.graph.read r pair.2 * w₁.graph.derivativeOf pair.1 var r).sum := by
    apply List.map_congr_left
    intro var _
    funext r
    refine congrArg List.sum (List.map_congr_left fun pair hpair => ?_)
    obtain ⟨hout, hseed⟩ := List.of_mem_zip hpair
    obtain ⟨id, name, hn⟩ := hseeds.isVariable _ hseed
    rw [read_of_var hn, hw.graph.derivativeOf_grows hprogress₁.grows (houtputs _ hout)]
  rw [hvalues]
  exact hproduct

/-- The product of the Hessian with its seeds, whatever the gradient is made of. -/
theorem hessianTimes_succeeds {node : Handle} {vars : List Handle} (hw : w.Ready)
    (hfolds : w.graph.folds = false) (hlive : w.graph.Live node)
    (hvars : ∀ var ∈ vars, w.graph.IsVariable var) :
    Succeeds Advances (hessianTimes node vars) w fun p w' =>
      p.seeds.length = vars.length ∧ w.graph.FreshVariables w'.graph p.seeds ∧
      List.Forall₂ w'.graph.Denotes p.product (vars.map fun var r =>
        ((vars.zip p.seeds).map fun pair =>
          r.assign pair.2 * w.graph.curvatureOf node var pair.1 r).sum) := by
  apply Succeeds.bind (gradient_succeeds hw hlive hvars)
  intro slopes w' hadv hslopes
  have hprogress := hadv hw
  have hfolds' : w'.graph.folds = false := hprogress.grows.extends.folds.trans hfolds
  refine (jacobianTimes_succeeds hprogress.ready (live_of_denotes_list hslopes) fun var hvar =>
    hprogress.grows.extends.isVariable (hvars var hvar)).weaken ?_
  rintro p w'' - ⟨hlength, hseeds, hproduct⟩
  refine ⟨hlength, hseeds.grows hprogress.grows (refl w''.graph), ?_⟩
  have hvalues : (vars.map fun var r => ((vars.zip p.seeds).map fun pair =>
      r.assign pair.2 * w.graph.curvatureOf node var pair.1 r).sum) =
      slopes.map fun slope r => ((vars.zip p.seeds).map fun pair =>
        r.assign pair.2 * w'.graph.derivativeOf slope pair.1 r).sum := by
    rw [← List.forall₂_eq_eq_eq, List.forall₂_map_left_iff, List.forall₂_map_right_iff]
    refine List.Forall₂.flip ((List.forall₂_map_right_iff.mp hslopes).imp
      fun slope var hslope => ?_)
    funext r
    refine congrArg List.sum (List.map_congr_left fun pair _ => ?_)
    rw [hslope.derivativeOf hfolds' pair.1 r]
  rw [hvalues]
  exact hproduct

end DiffM

end ExprGraph
