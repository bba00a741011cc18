import Mathlib
import ExprGraph.Proofs.Graph.Building
import ExprGraph.Proofs.Graph.Renaming

/-!
# Doing work again

Work on a graph that has been done changes nothing when it is done again, whatever has been built in
between: the nodes it makes are found, and the identities of the operators decide as before, because
nodes stay what they are.
-/

namespace ExprGraph

namespace Graph

variable {g g' : Graph}

namespace Extends

theorem holds_eq (hext : g.Extends g') (p : Node → Bool) {h : Handle} (hlive : g.Live h) :
    g'.holds p h = g.holds p h := by
  obtain ⟨n, hn⟩ := hlive
  rw [holds, holds, hn, hext.node_eq hn]

theorem resembles (hext : g.Extends g') {args : List Handle} (hlive : ∀ a ∈ args, g.Live a) :
    g.Resembles (fun a => a) g' args where
  node {a} ha := by
    obtain ⟨n, hn⟩ := hlive a ha
    exact ⟨n, n, hn, hext.node_eq hn, .refl n⟩
  eq_iff _ _ := Iff.rfl

theorem literalValues?_eq (hext : g.Extends g') {args : List Handle}
    (hlive : ∀ a ∈ args, g.Live a) : g'.literalValues? args = g.literalValues? args := by
  have hmap := (hext.resembles hlive).literalValues?_map
  rwa [List.map_id'] at hmap

/-- Identities look at live operands only, so they apply as before. -/
theorem simplify_eq (hext : g.Extends g') {op : Op} {args : List Handle}
    (hlive : ∀ a ∈ args, g.Live a) : g'.simplify op args = g.simplify op args := by
  have hmap := (hext.resembles hlive).simplify_map op
  rwa [List.map_id', Simplified.map_id] at hmap

end Extends

theorem settle_extends (g : Graph) (op : Op) (args : List Handle) :
    g.Extends (g.settle op args).2 := by
  unfold settle
  split
  · exact literal_extends g _
  · exact share_extends g _

theorem negate_extends (g : Graph) (a : Handle) : g.Extends (g.negate a).2 := by
  unfold negate
  split
  · exact .refl g
  · exact settle_extends g .neg [a]

theorem build_extends (g : Graph) (op : Op) (args : List Handle) :
    g.Extends (g.build op args).2 := by
  unfold build
  split
  · exact .refl g
  · exact literal_extends g _
  · exact negate_extends g _
  · exact settle_extends g op args

namespace WellFormed

/-- A literal that has a node is found. -/
theorem literal_eq_of_node (hg : g.WellFormed) {h : Handle} {v : Float}
    (hn : g.node h = .ok (.lit v)) : g.literal v = (h, g) := by
  have hfound : g.literals[v.toBits]? = some h := hg.literals.mpr ⟨v, hn, rfl⟩
  rw [Graph.literal, hfound]

theorem share_eq_of_node (hg : g.WellFormed) {h : Handle} {app : Application}
    (hn : g.node h = .ok (.app app)) : g.share app = (h, g) := by
  have hfound : g.operations[app]? = some h := hg.operations.mpr hn
  rw [Graph.share, hfound]

/-- A literal that has no node is made. -/
theorem literal_of_absent (hg : g.WellFormed) {v : Float}
    (habsent : ¬∃ a, g.node a = .ok (.lit v)) :
    (g.literal v).1 = g.handleAt g.nodes.size ∧ (g.literal v).2.nodes = g.nodes.push (.lit v) := by
  cases hfound : g.literals[v.toBits]? with
  | none => exact ⟨by rw [Graph.literal, hfound]; rfl, by rw [Graph.literal, hfound]; rfl⟩
  | some a =>
      obtain ⟨u, hu, hbits⟩ := hg.literals.mp hfound
      exact absurd ⟨a, float_eq_of_toBits_eq hbits ▸ hu⟩ habsent

/-- An application that has no node is made. -/
theorem share_of_absent (hg : g.WellFormed) {app : Application}
    (habsent : ¬∃ a, g.node a = .ok (.app app)) :
    (g.share app).1 = g.handleAt g.nodes.size ∧
      (g.share app).2.nodes = g.nodes.push (.app app) := by
  cases hfound : g.operations[app]? with
  | none => exact ⟨by rw [Graph.share, hfound]; rfl, by rw [Graph.share, hfound]; rfl⟩
  | some a => exact absurd ⟨a, hg.operations.mp hfound⟩ habsent

theorem literal_again (hg : g.WellFormed) (hg' : g'.WellFormed) (v : Float)
    (hext : (g.literal v).2.Extends g') : g'.literal v = ((g.literal v).1, g') :=
  hg'.literal_eq_of_node (hext.node_eq (hg.node_literal v))

theorem settle_again (hg : g.WellFormed) (hg' : g'.WellFormed) {op : Op} {args : List Handle}
    (hlive : ∀ a ∈ args, g.Live a) (hext : (g.settle op args).2.Extends g') :
    g'.settle op args = ((g.settle op args).1, g') := by
  have hgrown := (settle_extends g op args).trans hext
  have hvalues : (if g'.folds then g'.literalValues? args else none) =
      if g.folds then g.literalValues? args else none := by
    rw [hgrown.folds, hgrown.literalValues?_eq hlive]
  unfold settle at hext ⊢
  rw [hvalues]
  split at hext
  · exact hg.literal_again hg' _ hext
  · exact hg'.share_eq_of_node (hext.node_eq (hg.node_share _))

theorem negate_again (hg : g.WellFormed) (hg' : g'.WellFormed) {a : Handle} (hlive : g.Live a)
    (hext : (g.negate a).2.Extends g') : g'.negate a = ((g.negate a).1, g') := by
  have hsame : g'.simplify .neg [a] = g.simplify .neg [a] :=
    ((negate_extends g a).trans hext).simplify_eq (by simpa using hlive)
  rcases g.simplify_neg a with ⟨b, hb, -⟩ | hkeep
  · rw [negate, negate, hsame, hb]
  · have hbefore : g.negate a = g.settle .neg [a] := by rw [negate, hkeep]
    have hafter : g'.negate a = g'.settle .neg [a] := by rw [negate, hsame, hkeep]
    rw [hbefore] at hext ⊢
    rw [hafter]
    exact hg.settle_again hg' (by simpa using hlive) hext

/-- An application that has been built is found. -/
theorem build_again (hg : g.WellFormed) (hg' : g'.WellFormed) {op : Op} {args : List Handle}
    (hlive : ∀ a ∈ args, g.Live a) (hext : (g.build op args).2.Extends g') :
    g'.build op args = ((g.build op args).1, g') := by
  have hsame : g'.simplify op args = g.simplify op args :=
    ((build_extends g op args).trans hext).simplify_eq hlive
  cases hsimplify : g.simplify op args with
  | same h => rw [Graph.build, Graph.build, hsame, hsimplify]
  | literal v =>
      have hbefore : g.build op args = g.literal v := by rw [Graph.build, hsimplify]
      have hafter : g'.build op args = g'.literal v := by rw [Graph.build, hsame, hsimplify]
      rw [hbefore] at hext ⊢
      rw [hafter]
      exact hg.literal_again hg' v hext
  | negation a =>
      have ha := (identity_of_simplify hsimplify nofun).mem_of_negation
      have hbefore : g.build op args = g.negate a := by rw [Graph.build, hsimplify]
      have hafter : g'.build op args = g'.negate a := by rw [Graph.build, hsame, hsimplify]
      rw [hbefore] at hext ⊢
      rw [hafter]
      exact hg.negate_again hg' (hlive a ha) hext
  | keep =>
      have hbefore : g.build op args = g.settle op args := by rw [Graph.build, hsimplify]
      have hafter : g'.build op args = g'.settle op args := by rw [Graph.build, hsame, hsimplify]
      rw [hbefore] at hext ⊢
      rw [hafter]
      exact hg.settle_again hg' hlive hext

end WellFormed

end Graph

namespace BuildM

open ExprGraph.Graph

variable {α β : Type} {g g' : Graph}

/-- Done again in this state of the graph or a later one, the work gives the same result and changes
nothing. -/
def Replays (work : BuildM α) (a : α) (g : Graph) : Prop :=
  ∀ g', g'.WellFormed → g.Extends g' → work g' = .ok a g'

theorem Replays.extends {work : BuildM α} {a : α} (hwork : Replays work a g)
    (hext : g.Extends g') : Replays work a g' :=
  fun g'' hg'' hext' => hwork g'' hg'' (hext.trans hext')

theorem Replays.eq {work : BuildM α} {a b : α} (ha : Replays work a g) (hb : Replays work b g)
    (hg : g.WellFormed) : a = b := by
  cases (ha g hg (.refl g)).symm.trans (hb g hg (.refl g))
  rfl

theorem Replays.bind {x : BuildM α} {f : α → BuildM β} {a : α} {b : β} (hx : Replays x a g)
    (hf : Replays (f a) b g) : Replays (x >>= f) b g :=
  fun g' hg' hext => (bind_of_ok (hx g' hg' hext)).trans (hf g' hg' hext)

/-- If the work succeeds, it lets the graph grow, its result is as stated, and it need not be done
again. -/
def Settles (work : BuildM α) (g : Graph) (P : α → Graph → Prop) : Prop :=
  Gives Grows work g fun a g' => P a g' ∧ Replays work a g'

namespace Settles

variable {P : α → Graph → Prop} {Q : β → Graph → Prop}

theorem pure {a : α} (hP : P a g) : Settles (Pure.pure a : BuildM α) g P :=
  Gives.pure ⟨hP, fun _ _ _ => rfl⟩

theorem bind {x : BuildM α} {f : α → BuildM β} (hx : Settles x g P)
    (hf : ∀ a g', g.Grows g' → P a g' → Settles (f a) g' Q) : Settles (x >>= f) g Q := by
  refine Gives.bind hx fun a g' hgrows hfirst => ?_
  exact (hf a g' hgrows hfirst.1).weaken fun b g'' hgrows' hrest =>
    ⟨hrest.1, (hfirst.2.extends hgrows'.extends).bind hrest.2⟩

end Settles

theorem literal_settles (hg : g.WellFormed) (v : Float) :
    Settles (literal v) g fun h g' => g'.Live h := by
  have hrun : literal v g = .ok (g.literal v).1 (g.literal v).2 := rfl
  have hlive : (g.literal v).2.Live (g.literal v).1 := ⟨_, hg.node_literal v⟩
  refine (Succeeds.of_eq hrun (Step.literal v).grows ⟨hlive, fun g' hg' hext => ?_⟩).gives
  rw [literal, extend, hg.literal_again hg' v hext]

theorem operation_settles (hg : g.WellFormed) (op : Op) (args : List Handle) :
    Settles (operation op args) g fun h g' => g'.Live h := by
  rcases operation_cases op args g with ⟨e, hrefused⟩ | ⟨harity, hlive, hrun⟩
  · exact .of_error hrefused
  · refine (Succeeds.of_eq hrun (build_grows harity hlive)
      ⟨hg.live_build hlive, fun g' hg' hext => ?_⟩).gives
    have hlive' : ∀ a ∈ args, g'.Live a :=
      fun a ha => ((build_extends g op args).trans hext).live (hlive a ha)
    rw [operation_eq harity hlive', hg.build_again hg' hlive hext]

end BuildM

end ExprGraph
