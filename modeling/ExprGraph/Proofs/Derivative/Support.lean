import Mathlib
import ExprGraph.Proofs.Derivative.Independence
import ExprGraph.Proofs.Graph.Below

/-!
# The variables of a derivative

Whatever is built of nodes has only variables below it that lie below these nodes.  The rules of
differentiation use nothing but a node, its operands and literals; so a derivative draws on no
variable that the node does not draw on, and it can be computed from the same inputs.
-/

namespace ExprGraph

namespace Graph

/-- A live node below which no other variables lie than given ones. -/
structure DrawsOn (g : Graph) (vars : Set Handle) (h : Handle) : Prop where
  live : g.Live h
  mem {x : Handle} : g.IsVariable x → g.Reaches h x → x ∈ vars

variable {g g' : Graph} {vars : Set Handle} {h : Handle} {op : Op} {args : List Handle}

theorem DrawsOn.extends (hdraws : g.DrawsOn vars h) (hg : g.WellFormed) (hext : g.Extends g') :
    g'.DrawsOn vars h where
  live := hext.live hdraws.live
  mem := by
    rintro x ⟨id, name, hx⟩ hreach
    rw [hg.reaches_iff hext hdraws.live] at hreach
    obtain ⟨n, hn⟩ := hg.live_of_reaches hdraws.live hreach
    obtain rfl : n = .var id name := Except.ok.inj ((hext.node_eq hn).symm.trans hx)
    exact hdraws.mem ⟨id, name, hn⟩ hreach

theorem DrawsOn.grows (hdraws : g.DrawsOn vars h) (hg : g.WellFormed) (hgrows : g.Grows g') :
    g'.DrawsOn vars h :=
  hdraws.extends hg hgrows.extends

theorem drawsOn_list_grows (hg : g.WellFormed) (hgrows : g.Grows g')
    (hargs : ∀ a ∈ args, g.DrawsOn vars a) : ∀ a ∈ args, g'.DrawsOn vars a :=
  fun a ha => (hargs a ha).grows hg hgrows

theorem DrawsOn.operand (hdraws : g.DrawsOn vars h) (hg : g.WellFormed) {a : Handle}
    (ha : a ∈ g.argsOf h) : g.DrawsOn vars a where
  live := hg.live_of_reaches hdraws.live (.step ha (.refl a))
  mem hvar hreach := hdraws.mem hvar (.step ha hreach)

theorem drawsOn_of_lit {v : Float} (hn : g.node h = .ok (.lit v)) : g.DrawsOn vars h where
  live := ⟨_, hn⟩
  mem := by
    rintro x ⟨id, name, hx⟩ hreach
    cases hreach with
    | refl => cases hx.symm.trans hn
    | step ha _ =>
        rw [argsOf_of_node hn] at ha
        cases ha

theorem drawsOn_of_var (hvar : g.IsVariable h) (hmem : h ∈ vars) : g.DrawsOn vars h where
  live := hvar.live
  mem := by
    rintro x - hreach
    cases hreach with
    | refl => exact hmem
    | step ha _ =>
        rw [argsOf_of_isVariable hvar] at ha
        cases ha

/-- An application draws on what its operands draw on. -/
theorem drawsOn_of_app {app : Application} (hn : g.node h = .ok (.app app))
    (hargs : ∀ a ∈ app.args, g.DrawsOn vars a) : g.DrawsOn vars h where
  live := ⟨_, hn⟩
  mem := by
    rintro x ⟨id, name, hx⟩ hreach
    cases hreach with
    | refl => cases hx.symm.trans hn
    | step ha hrest =>
        rw [argsOf_of_node hn] at ha
        exact (hargs _ ha).mem ⟨id, name, hx⟩ hrest

section Building

variable (hg : g.WellFormed)
include hg

/-- What an identity finds draws on what the operands draw on. -/
theorem Identity.drawsOn (hidentity : g.Identity op args (.same h))
    (hargs : ∀ a ∈ args, g.DrawsOn vars a) : g.DrawsOn vars h := by
  cases hidentity with
  | neg_neg hn =>
      exact (hargs _ List.mem_cons_self).operand hg (argsOf_of_node hn ▸ List.mem_cons_self)
  | _ => exact hargs _ (by simp)

theorem drawsOn_settle (hargs : ∀ a ∈ args, g.DrawsOn vars a) :
    (g.settle op args).2.DrawsOn vars (g.settle op args).1 := by
  have hext := g.settle_extends op args
  unfold settle at hext ⊢
  split
  · exact drawsOn_of_lit (hg.node_literal _)
  · next hnone =>
    rw [hnone] at hext
    exact drawsOn_of_app (hg.node_share _) fun a ha =>
      (hargs a (Op.mem_arrange.mp ha)).extends hg hext

theorem drawsOn_negate {a : Handle} (ha : g.DrawsOn vars a) :
    (g.negate a).2.DrawsOn vars (g.negate a).1 := by
  have hargs : ∀ b ∈ [a], g.DrawsOn vars b := by simpa using ha
  rcases g.simplify_neg a with ⟨b, hsame, -⟩ | hkeep
  · rw [negate, hsame]
    exact (identity_of_simplify hsame (by simp)).drawsOn hg hargs
  · rw [negate, hkeep]
    exact drawsOn_settle hg hargs

/-- A node that is built draws on what its operands draw on. -/
theorem drawsOn_build (hargs : ∀ a ∈ args, g.DrawsOn vars a) :
    (g.build op args).2.DrawsOn vars (g.build op args).1 := by
  unfold build
  split
  · next h hsame => exact (identity_of_simplify hsame nofun).drawsOn hg hargs
  · exact drawsOn_of_lit (hg.node_literal _)
  · next a hneg =>
    exact drawsOn_negate hg (hargs a (identity_of_simplify hneg nofun).mem_of_negation)
  · exact drawsOn_settle hg hargs

end Building

end Graph

open ExprGraph.Graph

namespace BuildM

variable {g : Graph} {vars : Set Handle} {node var : Handle} {args : List Handle}

theorem isZero_eq (h : Handle) (g : Graph) : isZero h g = .ok (g.isZero h) g := rfl

theorem literal_draws (hg : g.WellFormed) (v : Float) :
    Gives Grows (literal v) g fun h g' => g'.DrawsOn vars h :=
  (literal_gives_node hg v).weaken fun _ _ _ => drawsOn_of_lit

theorem operation_draws (hg : g.WellFormed) (op : Op) (hargs : ∀ a ∈ args, g.DrawsOn vars a) :
    Gives Grows (operation op args) g fun h g' => g'.DrawsOn vars h := by
  rcases operation_cases op args g with ⟨e, hrefused⟩ | ⟨harity, hlive, hrun⟩
  · exact .of_error hrefused
  · exact (Succeeds.of_eq hrun (build_grows harity hlive) (drawsOn_build hg hargs)).gives

theorem formula_draws (f : Formula) (hg : g.WellFormed) (hnode : g.DrawsOn vars node)
    (hargs : ∀ a ∈ args, g.DrawsOn vars a) :
    Gives Grows (f.build node args) g fun h g' => g'.DrawsOn vars h := by
  induction f generalizing g with
  | self => exact .pure hnode
  | operand index =>
      rw [Formula.build]
      split
      · next a ha => exact .pure (hargs a (List.mem_of_getElem? ha))
      · exact .of_error rfl
  | literal v => exact literal_draws hg v
  | unary op a iha =>
      refine .bind (iha hg hnode hargs) fun a g₁ hgrows₁ ha => ?_
      exact operation_draws (hg.grows hgrows₁) op (by simpa using ha)
  | binary op a b iha ihb =>
      refine .bind (iha hg hnode hargs) fun a g₁ hgrows₁ ha => ?_
      have hg₁ := hg.grows hgrows₁
      refine .bind (ihb hg₁ (hnode.grows hg hgrows₁) (drawsOn_list_grows hg hgrows₁ hargs))
        fun b g₂ hgrows₂ hb => ?_
      exact operation_draws (hg₁.grows hgrows₂) op (by simpa using ⟨ha.grows hg₁ hgrows₂, hb⟩)
  | select c a b ihc iha ihb =>
      refine .bind (ihc hg hnode hargs) fun c g₁ hgrows₁ hc => ?_
      have hg₁ := hg.grows hgrows₁
      have hargs₁ := drawsOn_list_grows hg hgrows₁ hargs
      refine .bind (iha hg₁ (hnode.grows hg hgrows₁) hargs₁) fun a g₂ hgrows₂ ha => ?_
      have hg₂ := hg₁.grows hgrows₂
      have hc₂ := hc.grows hg₁ hgrows₂
      refine .bind (ihb hg₂ ((hnode.grows hg hgrows₁).grows hg₁ hgrows₂)
        (drawsOn_list_grows hg₁ hgrows₂ hargs₁)) fun b g₃ hgrows₃ hb => ?_
      exact operation_draws (hg₂.grows hgrows₃) .ifElse
        (by simpa using ⟨hc₂.grows hg₂ hgrows₃, ha.grows hg₂ hgrows₃, hb⟩)
  | after first second ihfirst ihsecond =>
      refine .bind (ihfirst hg hnode hargs) fun _ g₁ hgrows₁ _ => ?_
      exact ihsecond (hg.grows hgrows₁) (hnode.grows hg hgrows₁)
        (drawsOn_list_grows hg hgrows₁ hargs)

/-- The sum of the chain rule draws on what the node, its operands and their tangents draw on. -/
theorem combine_draws {app : Application} {index : Nat} {tangents : List Handle}
    {total : Option Handle} (hg : g.WellFormed) (hnode : g.DrawsOn vars node)
    (hargs : ∀ a ∈ app.args, g.DrawsOn vars a) (htangents : ∀ t ∈ tangents, g.DrawsOn vars t)
    (htotal : ∀ t ∈ total, g.DrawsOn vars t) :
    Gives Grows (combine node app index tangents total) g fun h g' => g'.DrawsOn vars h := by
  induction tangents generalizing g index total with
  | nil =>
      cases total with
      | none => exact literal_draws hg 0.0
      | some total => exact .pure (htotal total rfl)
  | cons tangent rest ih =>
      obtain ⟨htangent, hrest⟩ := List.forall_mem_cons.mp htangents
      -- the rest of the sum, from any later state and with any total
      have hnext : ∀ {g' : Graph} {total : Option Handle}, g.Grows g' →
          (∀ t ∈ total, g'.DrawsOn vars t) →
          Gives Grows (combine node app (index + 1) rest total) g'
            fun h g'' => g''.DrawsOn vars h :=
        fun hgrows htotal => ih (hg.grows hgrows) (hnode.grows hg hgrows)
          (drawsOn_list_grows hg hgrows hargs) (drawsOn_list_grows hg hgrows hrest) htotal
      rw [combine]
      refine .bind_eq (isZero_eq tangent g) ?_
      split
      · exact hnext (refl g) htotal
      refine .bind (formula_draws _ hg hnode hargs) fun p g₂ hgrows₂ hp => ?_
      have hg₂ := hg.grows hgrows₂
      refine .bind_eq (isZero_eq p g₂) ?_
      split
      · exact hnext hgrows₂ fun t ht => (htotal t ht).grows hg hgrows₂
      refine .bind (operation_draws hg₂ .mul
        (by simpa using ⟨hp, htangent.grows hg hgrows₂⟩)) fun term g₄ hgrows₄ hterm => ?_
      have hlater := hgrows₂.trans hgrows₄
      have hnext' : ∀ {g' : Graph} {sum : Handle}, g₄.Grows g' → g'.DrawsOn vars sum →
          Gives Grows (combine node app (index + 1) rest (some sum)) g'
            fun h g'' => g''.DrawsOn vars h := by
        intro g' sum hgrows hsum
        refine hnext (hlater.trans hgrows) fun t ht => ?_
        rwa [← Option.mem_some_iff.mp ht]
      cases total with
      | none => exact .bind (.pure hterm) fun sum g' hgrows hsum => hnext' hgrows hsum
      | some before =>
          have hbefore := (htotal before rfl).grows hg hlater
          exact .bind (operation_draws (hg.grows hlater) .add (by simpa using ⟨hbefore, hterm⟩))
            fun sum g' hgrows hsum => hnext' hgrows hsum

/-- A derivative draws on no variable that the node does not draw on. -/
theorem differentiateBelow_draws {depth : Nat} (hg : g.WellFormed) (hnode : g.DrawsOn vars node) :
    Gives Grows (differentiateBelow var depth node) g fun d g' => g'.DrawsOn vars d := by
  induction depth generalizing node g with
  | zero => exact .of_error rfl
  | succ depth ih =>
      refine .bind (inspect_gives _ g) fun n g₁ _ hread => ?_
      obtain ⟨rfl, hn⟩ := hread
      cases n with
      | lit v => exact literal_draws hg 0.0
      | var id name => exact literal_draws hg _
      | app app =>
          have hargs : ∀ a ∈ app.args, g₁.DrawsOn vars a :=
            fun a ha => hnode.operand hg (argsOf_of_node hn ▸ ha)
          have htangents : Gives Grows (app.args.mapM (differentiateBelow var depth)) g₁
              fun ts g' => List.Forall₂ (fun _ t => g'.WellFormed ∧ g'.DrawsOn vars t)
                app.args ts := by
            refine Gives.mapM
              (fun _ _ _ _ hgrows ht => ⟨ht.1.grows hgrows, ht.2.grows ht.1 hgrows⟩)
              fun a ha g₂ hgrows₂ => ?_
            have hg₂ := hg.grows hgrows₂
            exact (ih hg₂ ((hargs a ha).grows hg hgrows₂)).weaken
              fun _ _ hgrows₃ ht => ⟨hg₂.grows hgrows₃, ht⟩
          refine .bind htangents fun tangents g₂ hgrows hts => ?_
          exact combine_draws (hg.grows hgrows) (hnode.grows hg hgrows)
            (drawsOn_list_grows hg hgrows hargs)
            (fun t ht => (forall_mem_of_forall₂ hts t ht).2) fun t ht => absurd ht (by simp)

end BuildM

namespace DiffM

variable {w w' : Workspace} {vars : Set Handle} {node var d : Handle}

/-- A derivative that is given out has been built by the direct recursion, from the graph as it was
to the graph as it is. -/
theorem built_of_derivative (hw : w.Trusted) (hlive : w.graph.Live node)
    (hvar : w.graph.IsVariable var) (hrun : derivative node var w = .ok d w') {depth : Nat}
    (hdepth : w.graph.placeOf node < depth) :
    BuildM.differentiateBelow var depth node w.graph = .ok d w'.graph := by
  obtain ⟨d', w'', hrun', hdirect, -⟩ := derivative_direct hw hlive hvar
  cases hrun.symm.trans hrun'
  exact hdirect depth hdepth

/-- A derivative draws on no variable that the node does not draw on, whatever the memo has. -/
theorem derivative_draws (hw : w.Trusted) (hvar : w.graph.IsVariable var)
    (hnode : w.graph.DrawsOn vars node) (hrun : derivative node var w = .ok d w') :
    w'.graph.DrawsOn vars d :=
  (BuildM.differentiateBelow_draws hw.ready.graph hnode d w'.graph
    (built_of_derivative hw hnode.live hvar hrun (Nat.lt_succ_self _))).2

end DiffM

end ExprGraph
