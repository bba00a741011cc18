import Mathlib
import ExprGraph.Proofs.Derivative.Answer
import ExprGraph.Proofs.Derivative.Blind

/-!
# Independence

A node below which a variable does not lie is constant in it.  The chain rule skips zero tangents,
so the direct recursion makes nothing but the literal zero of such a node; and what a memo has of
it, or gives of it, is that literal too.
-/

namespace ExprGraph

open Workspace

namespace Graph

/-- One of some variables lies below a node. -/
def DependsOn (g : Graph) (vars : List Handle) (h : Handle) : Prop :=
  ∃ x ∈ vars, g.Reaches h x

/-- The node is an application, and one of some variables lies below its operand of that number. -/
def Passes (g : Graph) (vars : List Handle) (node : Handle) (index : Nat) : Prop :=
  ∃ app a, g.node node = .ok (.app app) ∧ app.args[index]? = some a ∧ g.DependsOn vars a

/-- The same of a node that lies below some roots. -/
def Feeds (g : Graph) (roots : Set Handle) (vars : List Handle) (node : Handle) (index : Nat) :
    Prop :=
  (∃ root ∈ roots, g.Reaches root node) ∧ g.Passes vars node index

variable {g g' : Graph} {vars : List Handle} {h : Handle}

theorem dependsOn_of_mem (hvar : h ∈ vars) : g.DependsOn vars h := ⟨h, hvar, .refl h⟩

theorem DependsOn.of_operand {a : Handle} (ha : a ∈ g.argsOf h) (hdepends : g.DependsOn vars a) :
    g.DependsOn vars h := by
  obtain ⟨x, hx, hreach⟩ := hdepends
  exact ⟨x, hx, .step ha hreach⟩

/-- What lies below a node lies below it as the graph grows. -/
theorem Extends.reaches (hext : g.Extends g') {a b : Handle} (hreach : g.Reaches a b) :
    g'.Reaches a b := by
  induction hreach with
  | refl => exact .refl _
  | @step h a b ha _ ih =>
      obtain ⟨app, hn, -⟩ := exists_app_of_mem_argsOf ha
      exact .step (hext.argsOf_eq ⟨_, hn⟩ ▸ ha) ih

theorem WellFormed.dependsOn_iff (hg : g.WellFormed) (hext : g.Extends g') (hlive : g.Live h) :
    g'.DependsOn vars h ↔ g.DependsOn vars h := by
  simp only [DependsOn, hg.reaches_iff hext hlive]

/-- Feeding goes on as the graph grows, for more roots and more variables. -/
theorem Feeds.mono {roots roots' : Set Handle} {vars' : List Handle} {node : Handle} {index : Nat}
    (hfeeds : g.Feeds roots vars node index) (hext : g.Extends g') (hroots : roots ⊆ roots')
    (hvars : vars ⊆ vars') : g'.Feeds roots' vars' node index := by
  obtain ⟨⟨root, hroot, hreach⟩, app, a, hn, ha, x, hx, hbelow⟩ := hfeeds
  exact ⟨⟨root, hroots hroot, hext.reaches hreach⟩, app, a, hext.node_eq hn, ha, x, hvars hx,
    hext.reaches hbelow⟩

/-- What feeds in a grown graph did so before, when the roots are from before. -/
theorem WellFormed.feeds_iff (hg : g.WellFormed) (hext : g.Extends g') {roots : Set Handle}
    (hroots : ∀ root ∈ roots, g.Live root) {node : Handle} {index : Nat} :
    g'.Feeds roots vars node index ↔ g.Feeds roots vars node index := by
  refine ⟨?_, fun hfeeds => hfeeds.mono hext subset_rfl (List.Subset.refl _)⟩
  rintro ⟨⟨root, hroot, hreach⟩, app, a, hn, ha, hdepends⟩
  rw [hg.reaches_iff hext (hroots root hroot)] at hreach
  obtain ⟨n, hn'⟩ := hg.live_of_reaches (hroots root hroot) hreach
  obtain rfl : n = .app app := Except.ok.inj ((hext.node_eq hn').symm.trans hn)
  have hlive := hg.live hn' (List.mem_of_getElem? ha)
  exact ⟨⟨root, hroot, hreach⟩, app, a, hn', ha, (hg.dependsOn_iff hext hlive).mp hdepends⟩

theorem isZero_of_node (hn : g.node h = .ok (.lit 0.0)) : g.isZero h = true :=
  isZero_iff.mpr ⟨0.0, hn, by decide⟩

theorem Extends.isZero (hext : g.Extends g') (hzero : g.isZero h = true) : g'.isZero h = true := by
  obtain ⟨v, hn, hv⟩ := isZero_iff.mp hzero
  exact isZero_iff.mpr ⟨v, hext.node_eq hn, hv⟩

end Graph

open ExprGraph.Graph

namespace BuildM

variable {g : Graph} {node var : Handle}

theorem literal_gives_node (hg : g.WellFormed) (v : Float) :
    Gives Graph.Grows (literal v) g fun h g' => g'.node h = .ok (.lit v) :=
  extend_gives (Step.literal v).grows (hg.node_literal v)

theorem inspect_gives {R : Graph → Graph → Prop} [IsPreorder Graph R] {α : Type}
    (f : Graph → Except GraphError α) (g : Graph) :
    Gives R (inspect f) g fun a g' => g' = g ∧ f g = .ok a := by
  cases hf : f g with
  | error e => exact .of_error (inspect_eq_error hf)
  | ok a => exact (Succeeds.of_eq (inspect_eq hf) (refl g) ⟨rfl, rfl⟩).gives

/-- Zero tangents add up to the literal zero. -/
theorem combine_of_isZero (node : Handle) (app : Application) (index : Nat)
    {tangents : List Handle} (hzero : ∀ t ∈ tangents, g.isZero t = true) :
    combine node app index tangents none g = literal 0.0 g := by
  induction tangents generalizing index with
  | nil => rfl
  | cons tangent rest ih =>
      obtain ⟨hhead, hrest⟩ := List.forall_mem_cons.mp hzero
      have hread : isZero tangent g = .ok (g.isZero tangent) g := rfl
      rw [combine, bind_of_ok hread, if_pos hhead]
      exact ih (index + 1) hrest

/-- The direct recursion makes the literal zero of a node that the variable does not lie below. -/
theorem differentiateBelow_gives_zero {depth : Nat} (hg : g.WellFormed)
    (hnot : ¬ g.Reaches node var) :
    Gives Graph.Grows (differentiateBelow var depth node) g fun d g' =>
      g'.node d = .ok (.lit 0.0) := by
  induction depth generalizing node g with
  | zero => exact .of_error rfl
  | succ depth ih =>
      refine .bind (inspect_gives _ g) fun n g₁ _ hread => ?_
      obtain ⟨rfl, hn⟩ := hread
      cases n with
      | lit v => exact literal_gives_node hg 0.0
      | var id name =>
          have hne : node ≠ var := fun heq => hnot (heq ▸ .refl node)
          dsimp only
          rw [if_neg hne]
          exact literal_gives_node hg 0.0
      | app app =>
          have htangents : Gives Graph.Grows (app.args.mapM (differentiateBelow var depth)) g₁
              fun ts g' => List.Forall₂ (fun _ t => g'.isZero t = true) app.args ts := by
            refine Gives.mapM (fun _ _ _ _ hgrows => hgrows.extends.isZero) fun a ha g₂ hgrows => ?_
            have hbelow : ¬ g₂.Reaches a var := by
              rw [hg.reaches_iff hgrows.extends (hg.live hn ha)]
              exact fun hreach => hnot (.step (argsOf_of_node hn ▸ ha) hreach)
            exact (ih (hg.grows hgrows) hbelow).weaken fun _ _ _ => isZero_of_node
          refine .bind htangents fun tangents g₂ hgrows hzero d g₃ hrun => ?_
          rw [combine_of_isZero node app 0 (forall_mem_of_forall₂ hzero)] at hrun
          exact literal_gives_node (hg.grows hgrows) 0.0 d g₃ hrun

end BuildM

namespace DiffM

variable {w : Workspace} {node var d : Handle}

/-- What a memo has of a node that the variable does not lie below is the literal zero. -/
theorem node_of_known (hw : w.Synced) (hfound : w.memo.derivatives[(node, var)]? = some d)
    (hnot : ¬ w.graph.Reaches node var) : w.graph.node d = .ok (.lit 0.0) := by
  have hrun := (hw.memo.derivatives hfound).2.2 _ (Nat.lt_succ_self _) w.graph hw.graph (.refl _)
  exact (BuildM.differentiateBelow_gives_zero hw.graph hnot d w.graph hrun).2

/-- The derivative of a node by a variable that does not lie below it is the literal zero. -/
theorem derivative_independent (hw : w.Trusted) (hlive : w.graph.Live node)
    (hvar : w.graph.IsVariable var) (hnot : ¬ w.graph.Reaches node var) :
    Succeeds Workspace.Grows (derivative node var) w fun d w' =>
      w'.graph.node d = .ok (.lit 0.0) := by
  obtain ⟨d, w', hrun, hdirect, -, -, hgrows, -⟩ := derivative_direct hw hlive hvar
  have hbuilt := hdirect _ (Nat.lt_succ_self _)
  exact .of_eq hrun hgrows
    (BuildM.differentiateBelow_gives_zero hw.ready.graph hnot d w'.graph hbuilt).2

end DiffM

end ExprGraph
