import Mathlib
import ExprGraph.Proofs.Graph.Canonical
import ExprGraph.Proofs.Graph.Replay

/-!
# Relocation

The same construction in two graphs that hand out their slots in different orders.  Nodes made at
the same place in the order of making correspond.  Building compares handles for equality, which the
correspondence keeps, and by their slots, which it does not; but slots only decide in which order
the operands of a commutative operator are stored.
-/

namespace ExprGraph

/-- The order in which operands are given does not show in the order in which they are stored. -/
theorem Op.Rearranges.arrange_eq {op : Op} {args args' : List Handle} {g : Graph}
    (hargs : op.Rearranges args args') (hlive : ∀ a ∈ args, g.Live a) :
    op.arrange args = op.arrange args' := by
  cases hargs with
  | same => rfl
  | swap hop a b =>
      rcases lt_trichotomy a.slot b.slot with hlt | heq | hgt
      · rw [arrange_of_le hlt.le, arrange_of_swap hop hlt]
      · obtain rfl := Graph.eq_of_slot_eq (hlive a (by simp)) (hlive b (by simp)) heq
        rfl
      · rw [arrange_of_swap hop hgt, arrange_of_le hgt.le]

namespace Graph

/-- A renaming that takes the nodes of one graph to those of another, one to one. -/
structure Isomorphic (g : Graph) (φ : Handle → Handle) (g' : Graph) : Prop where
  bijOn : Set.BijOn φ {a | g.Live a} {a' | g'.Live a'}
  node {a : Handle} {n : Node} : g.node a = .ok n → ∃ n', g'.node (φ a) = .ok n' ∧ n.Renamed φ n'

/-- Two graphs with corresponding nodes at the same places, and the handles of the one as those of
the other. -/
structure Relocation (g : Graph) (φ : Handle → Handle) (g' : Graph) : Prop where
  wellFormed : g.WellFormed
  wellFormed' : g'.WellFormed
  arranged : g.Arranged
  arranged' : g'.Arranged
  folds : g'.folds = g.folds
  handle (h : Handle) : φ h = g'.handleAt (g.placeOf h)
  nodes : List.Forall₂ (Node.Renamed φ) g.nodes.toList g'.nodes.toList

namespace Relocation

variable {g g' h h' : Graph} {φ : Handle → Handle}

theorem size_eq (hφ : g.Relocation φ g') : g'.size = g.size :=
  hφ.nodes.length_eq.symm

theorem exists_node (hφ : g.Relocation φ g') {a : Handle} {n : Node} (hn : g.node a = .ok n) :
    ∃ n', g'.node (φ a) = .ok n' ∧ n.Renamed φ n' := by
  obtain ⟨hplace, rfl⟩ := Array.getElem?_eq_some_iff.mp (eq_handleAt_of_node hn).2
  have hplace' : g.placeOf a < g'.nodes.size := hplace.trans_eq hφ.size_eq.symm
  refine ⟨g'.nodes[g.placeOf a], ?_, ?_⟩
  · rw [hφ.handle, g'.node_handleAt hplace']
  · exact hφ.nodes.get hplace hplace'

theorem live (hφ : g.Relocation φ g') {a : Handle} (ha : g.Live a) : g'.Live (φ a) := by
  obtain ⟨n, hn⟩ := ha
  obtain ⟨n', hn', -⟩ := hφ.exists_node hn
  exact ⟨n', hn'⟩

theorem live_map (hφ : g.Relocation φ g') {args : List Handle} (hlive : ∀ a ∈ args, g.Live a) :
    ∀ a' ∈ args.map φ, g'.Live a' := by
  intro a' ha'
  obtain ⟨a, ha, rfl⟩ := List.mem_map.mp ha'
  exact hφ.live (hlive a ha)

/-- Every node of the second graph corresponds to one of the first. -/
theorem exists_node_back (hφ : g.Relocation φ g') {a' : Handle} {n' : Node}
    (hn' : g'.node a' = .ok n') : ∃ a n, φ a = a' ∧ g.node a = .ok n ∧ n.Renamed φ n' := by
  obtain ⟨hhandle, hfound⟩ := eq_handleAt_of_node hn'
  obtain ⟨hplace', rfl⟩ := Array.getElem?_eq_some_iff.mp hfound
  have hplace : g'.placeOf a' < g.nodes.size := hplace'.trans_eq hφ.size_eq
  refine ⟨g.handleAt (g'.placeOf a'), g.nodes[g'.placeOf a'], ?_, g.node_handleAt hplace,
    hφ.nodes.get hplace hplace'⟩
  rw [hφ.handle, placeOf_handleAt, ← hhandle]

/-- The way back, from the handles of the second graph to those of the first. -/
theorem map_back (hφ : g.Relocation φ g') {args : List Handle} (hlive : ∀ a ∈ args, g.Live a) :
    (args.map φ).map (fun a => g.handleAt (g'.placeOf a)) = args := by
  rw [List.map_map]
  refine (List.map_congr_left fun a ha => ?_).trans (List.map_id args)
  obtain ⟨n, hn⟩ := hlive a ha
  change g.handleAt (g'.placeOf (φ a)) = a
  rw [hφ.handle, placeOf_handleAt, ← (eq_handleAt_of_node hn).1]

theorem eq_iff (hφ : g.Relocation φ g') {a b : Handle} (ha : g.Live a) (hb : g.Live b) :
    φ a = φ b ↔ a = b := by
  refine ⟨fun hab => ?_, congrArg φ⟩
  apply eq_of_placeOf_eq ha hb
  rw [hφ.handle, hφ.handle] at hab
  have hplaces := congrArg g'.placeOf hab
  rwa [placeOf_handleAt, placeOf_handleAt] at hplaces

theorem rearranges_of_map (hφ : g.Relocation φ g') {op : Op} {args args' : List Handle}
    (hlive : ∀ a ∈ args, g.Live a) (hlive' : ∀ a ∈ args', g.Live a)
    (hargs : op.Rearranges (args.map φ) (args'.map φ)) : op.Rearranges args args' := by
  have hback := hargs.map fun a => g.handleAt (g'.placeOf a)
  rwa [hφ.map_back hlive, hφ.map_back hlive'] at hback

theorem resembles (hφ : g.Relocation φ g') {args : List Handle} (hlive : ∀ a ∈ args, g.Live a) :
    g.Resembles φ g' args where
  node {a} ha := by
    obtain ⟨n, hn⟩ := hlive a ha
    obtain ⟨n', hn', hrenamed⟩ := hφ.exists_node hn
    exact ⟨n, n', hn, hn', hrenamed⟩
  eq_iff ha hb := hφ.eq_iff (hlive _ ha) (hlive _ hb)

/-- The nodes made next correspond. -/
theorem handle_next (hφ : g.Relocation φ g') :
    g'.handleAt g'.nodes.size = φ (g.handleAt g.nodes.size) := by
  rw [hφ.handle, placeOf_handleAt]
  exact congrArg g'.handleAt hφ.size_eq

/-- Steps that make corresponding nodes. -/
theorem push (hφ : g.Relocation φ g') {n n' : Node} (hn : n.Renamed φ n') (hstep : g.Step h)
    (hstep' : g'.Step h') (hnodes : h.nodes = g.nodes.push n)
    (hnodes' : h'.nodes = g'.nodes.push n') : h.Relocation φ h' where
  wellFormed := hφ.wellFormed.step hstep
  wellFormed' := hφ.wellFormed'.step hstep'
  arranged := hφ.arranged.step hstep
  arranged' := hφ.arranged'.step hstep'
  folds := by rw [hstep'.grows.extends.folds, hφ.folds, hstep.grows.extends.folds]
  handle a := by
    have hext := hstep'.grows.extends
    rw [hstep.grows.extends.placeOf_eq, hφ.handle, handleAt, handleAt, hext.recycled, hext.epoch,
      hext.id]
  nodes := by
    rw [hnodes, hnodes', Array.toList_push, Array.toList_push]
    exact List.rel_append hφ.nodes (.cons hn .nil)

/-- Corresponding results of building, in corresponding graphs. -/
def Corresponds (φ : Handle → Handle) (made made' : Handle × Graph) : Prop :=
  made'.1 = φ made.1 ∧ made.2.Relocation φ made'.2

theorem declare (hφ : g.Relocation φ g') (name : String) :
    Corresponds φ (g.declare name) (g'.declare name) :=
  ⟨hφ.handle_next, hφ.push (.var _ _ name) (.declare name) (.declare name) rfl rfl⟩

theorem literal (hφ : g.Relocation φ g') (v : Float) :
    Corresponds φ (g.literal v) (g'.literal v) := by
  by_cases hknown : ∃ a, g.node a = .ok (.lit v)
  · obtain ⟨a, ha⟩ := hknown
    obtain ⟨n', hn', hrenamed⟩ := hφ.exists_node ha
    cases hrenamed
    rw [hφ.wellFormed.literal_eq_of_node ha, hφ.wellFormed'.literal_eq_of_node hn']
    exact ⟨rfl, hφ⟩
  · have hknown' : ¬∃ a', g'.node a' = .ok (.lit v) := by
      rintro ⟨a', ha'⟩
      obtain ⟨a, n, -, ha, hrenamed⟩ := hφ.exists_node_back ha'
      cases hrenamed
      exact hknown ⟨a, ha⟩
    obtain ⟨hhandle, hnodes⟩ := hφ.wellFormed.literal_of_absent hknown
    obtain ⟨hhandle', hnodes'⟩ := hφ.wellFormed'.literal_of_absent hknown'
    refine ⟨?_, hφ.push (.lit v) (.literal v) (.literal v) hnodes hnodes'⟩
    rw [hhandle, hhandle', hφ.handle_next]

/-- An application is found in both graphs or made in both, whichever way its operands are stored
in them. -/
theorem share (hφ : g.Relocation φ g') {op : Op} {args : List Handle}
    (hlive : ∀ a ∈ args, g.Live a) (hstep : g.Step (g.share ⟨op, op.arrange args⟩).2)
    (hstep' : g'.Step (g'.share ⟨op, op.arrange (args.map φ)⟩).2) :
    Corresponds φ (g.share ⟨op, op.arrange args⟩) (g'.share ⟨op, op.arrange (args.map φ)⟩) := by
  have harrange : op.Rearranges ((op.arrange args).map φ) (op.arrange (args.map φ)) :=
    ((Op.Rearranges.arrange op args).map φ).symm.trans (.arrange op (args.map φ))
  have hlive' := hφ.live_map hlive
  by_cases hknown : ∃ a, g.node a = .ok (.app ⟨op, op.arrange args⟩)
  · obtain ⟨a, ha⟩ := hknown
    obtain ⟨n', hn', hrenamed⟩ := hφ.exists_node ha
    cases hrenamed with
    | @app _ _ args' hargs =>
        have hstored : args' = op.arrange (args.map φ) := by
          rw [(((Op.Rearranges.arrange op args).map φ).trans hargs).arrange_eq hlive']
          exact (hφ.arranged' _ _ hn').symm
        rw [hstored] at hn'
        rw [hφ.wellFormed.share_eq_of_node ha, hφ.wellFormed'.share_eq_of_node hn']
        exact ⟨rfl, hφ⟩
  · have hknown' : ¬∃ a', g'.node a' = .ok (.app ⟨op, op.arrange (args.map φ)⟩) := by
      rintro ⟨a', ha'⟩
      obtain ⟨a, n, -, ha, hrenamed⟩ := hφ.exists_node_back ha'
      cases hrenamed with
      | @app _ args₀ _ hargs =>
          have hback : op.Rearranges args₀ args :=
            hφ.rearranges_of_map (fun _ => hφ.wellFormed.live ha) hlive
              (hargs.trans (Op.Rearranges.arrange op (args.map φ)).symm)
          have hstored : args₀ = op.arrange args := by
            rw [← hback.arrange_eq fun _ => hφ.wellFormed.live ha]
            exact (hφ.arranged _ _ ha).symm
          exact hknown ⟨a, hstored ▸ ha⟩
    obtain ⟨hhandle, hnodes⟩ := hφ.wellFormed.share_of_absent hknown
    obtain ⟨hhandle', hnodes'⟩ := hφ.wellFormed'.share_of_absent hknown'
    refine ⟨?_, hφ.push (.app harrange) hstep hstep' hnodes hnodes'⟩
    rw [hhandle, hhandle', hφ.handle_next]

theorem settle (hφ : g.Relocation φ g') {op : Op} {args : List Handle}
    (harity : args.length = op.arity) (hlive : ∀ a ∈ args, g.Live a)
    (hkeep : g.simplify op args = .keep) :
    Corresponds φ (g.settle op args) (g'.settle op (args.map φ)) := by
  have hkeep' : g'.simplify op (args.map φ) = .keep := by
    rw [(hφ.resembles hlive).simplify_map op, hkeep]
    rfl
  have hvalues := (hφ.resembles hlive).literalValues?_map
  unfold Graph.settle
  rw [hφ.folds, hvalues]
  split
  · exact hφ.literal _
  · next hfold =>
    have hfold : g.folds = true → g.literalValues? args = none :=
      fun hfolds => by rwa [if_pos hfolds] at hfold
    refine hφ.share hlive (.share harity hlive hkeep hfold)
      (.share (by simpa using harity) (hφ.live_map hlive) hkeep' fun hfolds => ?_)
    rw [hvalues]
    exact hfold (hφ.folds ▸ hfolds)

theorem negate (hφ : g.Relocation φ g') {a : Handle} (hlive : g.Live a) :
    Corresponds φ (g.negate a) (g'.negate (φ a)) := by
  have hlive : ∀ b ∈ [a], g.Live b := by simpa using hlive
  have hsimplify : g'.simplify .neg [φ a] = (g.simplify .neg [a]).map φ :=
    (hφ.resembles hlive).simplify_map .neg
  unfold Graph.negate
  rw [hsimplify]
  rcases g.simplify_neg a with ⟨b, hsame, -⟩ | hkeep
  · rw [hsame]
    exact ⟨rfl, hφ⟩
  · rw [hkeep]
    exact hφ.settle rfl hlive hkeep

/-- Building finds, rewrites and makes corresponding nodes. -/
theorem build (hφ : g.Relocation φ g') {op : Op} {args : List Handle}
    (harity : args.length = op.arity) (hlive : ∀ a ∈ args, g.Live a) :
    Corresponds φ (g.build op args) (g'.build op (args.map φ)) := by
  have hsimplify := (hφ.resembles hlive).simplify_map op
  unfold Graph.build
  rw [hsimplify]
  cases happlied : g.simplify op args with
  | same a => exact ⟨rfl, hφ⟩
  | literal v => exact hφ.literal v
  | negation a =>
      exact hφ.negate (hlive a (identity_of_simplify happlied nofun).mem_of_negation)
  | keep => exact hφ.settle harity hlive happlied

theorem isomorphic (hφ : g.Relocation φ g') : g.Isomorphic φ g' where
  bijOn := by
    refine ⟨fun a ha => hφ.live ha, fun a ha b hb hab => (hφ.eq_iff ha hb).mp hab, ?_⟩
    rintro a' ⟨n', hn'⟩
    obtain ⟨a, n, hhandle, hn, -⟩ := hφ.exists_node_back hn'
    exact ⟨a, ⟨n, hn⟩, hhandle⟩
  node hn := hφ.exists_node hn

/-- Graphs without nodes correspond. -/
theorem of_nodes_eq (hg : g.WellFormed) (hg' : g'.WellFormed) (hnodes : g.nodes = #[])
    (hnodes' : g'.nodes = #[]) (hfolds : g'.folds = g.folds) :
    g.Relocation (fun a => g'.handleAt (g.placeOf a)) g' where
  wellFormed := hg
  wellFormed' := hg'
  arranged _ _ hn := absurd ⟨_, hn⟩ (not_live_of_nodes_eq hnodes _)
  arranged' _ _ hn := absurd ⟨_, hn⟩ (not_live_of_nodes_eq hnodes' _)
  folds := hfolds
  handle _ := rfl
  nodes := by
    rw [hnodes, hnodes']
    exact .nil

end Relocation

end Graph

end ExprGraph
