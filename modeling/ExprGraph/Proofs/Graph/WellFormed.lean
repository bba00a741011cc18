import Mathlib
import ExprGraph.Proofs.Graph.Growth

/-!
# Well-formed graphs

The operands of a stored application are as many as its operator takes, and are live nodes made
before it; the two tables are exact inverses of the literals and of the applications that are
stored.  Every step keeps this and keeps every node, so it holds of all graphs that calls lead to.
-/

namespace ExprGraph

namespace Graph

/-- One graph is another one with more nodes. -/
structure Extends (g g' : Graph) : Prop where
  id : g'.id = g.id
  epoch : g'.epoch = g.epoch
  folds : g'.folds = g.folds
  recycled : g'.recycled = g.recycled
  nodes {place : Nat} {n : Node} : g.nodes[place]? = some n → g'.nodes[place]? = some n

namespace Extends

variable {g g' g'' : Graph}

theorem refl (g : Graph) : g.Extends g :=
  ⟨rfl, rfl, rfl, rfl, fun hn => hn⟩

theorem trans (hfirst : g.Extends g') (hrest : g'.Extends g'') : g.Extends g'' where
  id := hrest.id.trans hfirst.id
  epoch := hrest.epoch.trans hfirst.epoch
  folds := hrest.folds.trans hfirst.folds
  recycled := hrest.recycled.trans hfirst.recycled
  nodes hn := hrest.nodes (hfirst.nodes hn)

theorem placeOf_eq (hext : g.Extends g') (h : Handle) : g'.placeOf h = g.placeOf h := by
  rw [placeOf, placeOf, hext.recycled]

theorem generation_eq (hext : g.Extends g') :
    (g'.id, g'.epoch) = (g.id, g.epoch) := by
  rw [hext.id, hext.epoch]

/-- Nodes stay what they are. -/
theorem node_eq (hext : g.Extends g') {h : Handle} {n : Node} (hn : g.node h = .ok n) :
    g'.node h = .ok n := by
  have hfound := hext.nodes (eq_handleAt_of_node hn).2
  rw [← hext.placeOf_eq h] at hfound
  unfold node at hn ⊢
  rw [hext.id, hext.epoch, hfound]
  split at hn
  · cases hn
  · next hgraph =>
    rw [if_neg hgraph]
    split at hn
    · cases hn
    · next hepoch => rw [if_neg hepoch]

theorem live (hext : g.Extends g') {h : Handle} (hlive : g.Live h) : g'.Live h := by
  obtain ⟨n, hn⟩ := hlive
  exact ⟨n, hext.node_eq hn⟩

theorem isVariable (hext : g.Extends g') {h : Handle} (hvar : g.IsVariable h) :
    g'.IsVariable h := by
  obtain ⟨id, name, hn⟩ := hvar
  exact ⟨id, name, hext.node_eq hn⟩

end Extends

theorem placeOf_lt_of_live {g : Graph} {h : Handle} (hlive : g.Live h) :
    g.placeOf h < g.nodes.size := by
  obtain ⟨n, hn⟩ := hlive
  exact (Array.getElem?_eq_some_iff.mp (eq_handleAt_of_node hn).2).choose

theorem graph_eq_of_live {g : Graph} {h : Handle} (hlive : g.Live h) :
    h.graph = g.id ∧ h.epoch = g.epoch := by
  obtain ⟨n, hn⟩ := hlive
  rw [(eq_handleAt_of_node hn).1]
  exact ⟨rfl, rfl⟩

/-- Live nodes are told apart by their places. -/
theorem eq_of_placeOf_eq {g : Graph} {h h' : Handle} (hlive : g.Live h) (hlive' : g.Live h')
    (hplace : g.placeOf h = g.placeOf h') : h = h' := by
  obtain ⟨n, hn⟩ := hlive
  obtain ⟨n', hn'⟩ := hlive'
  calc
    h = g.handleAt (g.placeOf h) := (eq_handleAt_of_node hn).1
    _ = g.handleAt (g.placeOf h') := by rw [hplace]
    _ = h' := (eq_handleAt_of_node hn').1.symm

theorem extends_push (g : Graph) (n : Node) : g.Extends (g.push n).2 where
  id := rfl
  epoch := rfl
  folds := rfl
  recycled := rfl
  nodes hfound := by
    obtain ⟨hplace, hn⟩ := Array.getElem?_eq_some_iff.mp hfound
    simp only [push]
    rw [Array.getElem?_push_lt hplace, hn]

theorem placeOf_push_self (g : Graph) (n : Node) : g.placeOf (g.push n).1 = g.nodes.size :=
  g.placeOf_handleAt g.nodes.size

theorem not_live_push_self (g : Graph) (n : Node) : ¬ g.Live (g.push n).1 := by
  intro hlive
  have hplace := placeOf_lt_of_live hlive
  rw [placeOf_push_self] at hplace
  exact Nat.lt_irrefl _ hplace

/-- After a push there are the nodes there were and the new one. -/
theorem node_push_iff {g : Graph} {n m : Node} {h : Handle} :
    (g.push n).2.node h = .ok m ↔ g.node h = .ok m ∨ (h = (g.push n).1 ∧ n = m) := by
  constructor
  · intro hm
    obtain ⟨hhandle, hfound⟩ := eq_handleAt_of_node hm
    change h = g.handleAt (g.placeOf h) at hhandle
    change (g.nodes.push n)[g.placeOf h]? = some m at hfound
    rw [Array.getElem?_push] at hfound
    split at hfound
    · next hplace =>
      refine .inr ⟨?_, Option.some.inj hfound⟩
      rw [hhandle, hplace]
      rfl
    · obtain ⟨hplace, hsame⟩ := Array.getElem?_eq_some_iff.mp hfound
      refine .inl ?_
      rw [hhandle, g.node_handleAt hplace, hsame]
  · rintro (hm | ⟨rfl, rfl⟩)
    · exact node_push_of_node n hm
    · exact g.node_push_self n

/-- What holds of every graph that calls lead to. -/
structure WellFormed (g : Graph) : Prop where
  arity {h : Handle} {app : Application} :
    g.node h = .ok (.app app) → app.args.length = app.op.arity
  live {h a : Handle} {app : Application} :
    g.node h = .ok (.app app) → a ∈ app.args → g.Live a
  earlier {h a : Handle} {app : Application} :
    g.node h = .ok (.app app) → a ∈ app.args → g.placeOf a < g.placeOf h
  literals {bits : UInt64} {h : Handle} :
    g.literals[bits]? = some h ↔ ∃ v, g.node h = .ok (.lit v) ∧ v.toBits = bits
  operations {app : Application} {h : Handle} :
    g.operations[app]? = some h ↔ g.node h = .ok (.app app)

theorem not_live_of_nodes_eq {g : Graph} (hnodes : g.nodes = #[]) (h : Handle) : ¬ g.Live h := by
  intro hlive
  have hplace := placeOf_lt_of_live hlive
  simp [hnodes] at hplace

theorem wellFormed_of_nodes_eq {g : Graph} (hnodes : g.nodes = #[]) (hliterals : g.literals = {})
    (hoperations : g.operations = {}) : g.WellFormed where
  arity hn := absurd ⟨_, hn⟩ (not_live_of_nodes_eq hnodes _)
  live hn := absurd ⟨_, hn⟩ (not_live_of_nodes_eq hnodes _)
  earlier hn := absurd ⟨_, hn⟩ (not_live_of_nodes_eq hnodes _)
  literals {bits h} := by
    rw [hliterals]
    simp only [Std.HashMap.getElem?_empty, reduceCtorEq, false_iff]
    rintro ⟨v, hn, -⟩
    exact not_live_of_nodes_eq hnodes h ⟨_, hn⟩
  operations {app h} := by
    rw [hoperations]
    simp only [Std.HashMap.getElem?_empty, reduceCtorEq, false_iff]
    exact fun hn => not_live_of_nodes_eq hnodes h ⟨_, hn⟩

theorem wellFormed_empty (id : UInt32) (folds : Bool) : (empty id folds).WellFormed :=
  wellFormed_of_nodes_eq rfl rfl rfl

theorem wellFormed_clear (g : Graph) : g.clear.WellFormed :=
  wellFormed_of_nodes_eq rfl rfl rfl

namespace WellFormed

variable {g : Graph}

/-- Pushing a node keeps the conditions on operands, when the node meets them itself. -/
theorem push_operands (hg : g.WellFormed) {n : Node} {h : Handle} {app : Application}
    (hnew : ∀ app, n = .app app → app.args.length = app.op.arity ∧ ∀ a ∈ app.args, g.Live a)
    (hn : (g.push n).2.node h = .ok (.app app)) :
    app.args.length = app.op.arity ∧ ∀ a ∈ app.args, g.Live a ∧ g.placeOf a < g.placeOf h := by
  rcases node_push_iff.mp hn with hold | ⟨rfl, heq⟩
  · exact ⟨hg.arity hold, fun a ha => ⟨hg.live hold ha, hg.earlier hold ha⟩⟩
  · refine ⟨(hnew app heq).1, fun a ha => ?_⟩
    have hlive := (hnew app heq).2 a ha
    refine ⟨hlive, ?_⟩
    rw [placeOf_push_self]
    exact placeOf_lt_of_live hlive

theorem declare (hg : g.WellFormed) (name : String) : (g.declare name).2.WellFormed := by
  have hoperands {h : Handle} {app : Application}
      (hn : (g.push (.var g.nextVariable name)).2.node h = .ok (.app app)) :=
    hg.push_operands (by simp) hn
  refine ⟨fun hn => (hoperands hn).1, fun hn ha => ?_, fun hn ha => ((hoperands hn).2 _ ha).2,
    ?_, ?_⟩
  · exact (g.extends_push _).live ((hoperands hn).2 _ ha).1
  · intro bits h
    change g.literals[bits]? = some h ↔
      ∃ v, (g.push (.var g.nextVariable name)).2.node h = .ok (.lit v) ∧ v.toBits = bits
    simp [node_push_iff, hg.literals]
  · intro app h
    change g.operations[app]? = some h ↔
      (g.push (.var g.nextVariable name)).2.node h = .ok (.app app)
    simp [node_push_iff, hg.operations]

theorem literal (hg : g.WellFormed) (v : Float) : (g.literal v).2.WellFormed := by
  unfold Graph.literal
  split
  · exact hg
  · next habsent =>
    have hoperands {h : Handle} {app : Application}
        (hn : (g.push (.lit v)).2.node h = .ok (.app app)) :=
      hg.push_operands (by simp) hn
    refine ⟨fun hn => (hoperands hn).1, fun hn ha => ?_, fun hn ha => ((hoperands hn).2 _ ha).2,
      ?_, ?_⟩
    · exact (g.extends_push _).live ((hoperands hn).2 _ ha).1
    · intro bits h
      change (g.literals.insert v.toBits (g.push (.lit v)).1)[bits]? = some h ↔
        ∃ u, (g.push (.lit v)).2.node h = .ok (.lit u) ∧ u.toBits = bits
      rw [Std.HashMap.getElem?_insert]
      simp only [node_push_iff]
      split
      · next hbits =>
        have hbits : v.toBits = bits := eq_of_beq hbits
        subst hbits
        have hnone : ∀ u, g.node h = .ok (.lit u) → u.toBits ≠ v.toBits := by
          intro u hu heq
          rw [hg.literals.mpr ⟨u, hu, heq⟩] at habsent
          cases habsent
        constructor
        · rintro ⟨⟩
          exact ⟨v, .inr ⟨rfl, rfl⟩, rfl⟩
        · rintro ⟨u, hu | ⟨rfl, -⟩, heq⟩
          · exact absurd heq (hnone u hu)
          · rfl
      · next hbits =>
        rw [hg.literals]
        constructor
        · rintro ⟨u, hu, heq⟩
          exact ⟨u, .inl hu, heq⟩
        · rintro ⟨u, hu | ⟨-, hu⟩, heq⟩
          · exact ⟨u, hu, heq⟩
          · cases hu
            exact absurd (beq_iff_eq.mpr heq) hbits
    · intro app h
      change g.operations[app]? = some h ↔ (g.push (.lit v)).2.node h = .ok (.app app)
      simp [node_push_iff, hg.operations]

theorem share (hg : g.WellFormed) {app : Application} (harity : app.args.length = app.op.arity)
    (hlive : ∀ a ∈ app.args, g.Live a) : (g.share app).2.WellFormed := by
  unfold Graph.share
  split
  · exact hg
  · next habsent =>
    have hoperands {h : Handle} {other : Application}
        (hn : (g.push (.app app)).2.node h = .ok (.app other)) :=
      hg.push_operands (by rintro _ ⟨⟩; exact ⟨harity, hlive⟩) hn
    refine ⟨fun hn => (hoperands hn).1, fun hn ha => ?_, fun hn ha => ((hoperands hn).2 _ ha).2,
      ?_, ?_⟩
    · exact (g.extends_push _).live ((hoperands hn).2 _ ha).1
    · intro bits h
      change g.literals[bits]? = some h ↔
        ∃ v, (g.push (.app app)).2.node h = .ok (.lit v) ∧ v.toBits = bits
      simp [node_push_iff, hg.literals]
    · intro other h
      change (g.operations.insert app (g.push (.app app)).1)[other]? = some h ↔
        (g.push (.app app)).2.node h = .ok (.app other)
      rw [Std.HashMap.getElem?_insert, node_push_iff]
      split
      · next happ =>
        have happ : app = other := eq_of_beq happ
        subst happ
        have hnone : g.node h ≠ .ok (.app app) := by
          intro hn
          rw [hg.operations.mpr hn] at habsent
          cases habsent
        constructor
        · rintro ⟨⟩
          exact .inr ⟨rfl, rfl⟩
        · rintro (hn | ⟨rfl, -⟩)
          · exact absurd hn hnone
          · rfl
      · next happ =>
        rw [hg.operations]
        constructor
        · exact .inl
        · rintro (hn | ⟨-, hn⟩)
          · exact hn
          · cases hn
            exact absurd (beq_self_eq_true _) happ

theorem step {g' : Graph} (hg : g.WellFormed) (hstep : g.Step g') : g'.WellFormed := by
  cases hstep with
  | declare name => exact hg.declare name
  | literal v => exact hg.literal v
  | share harity hlive _ _ =>
      exact hg.share (by simpa using harity) fun a ha => hlive a (Op.mem_arrange.mp ha)

theorem grows {g' : Graph} (hg : g.WellFormed) (hgrows : g.Grows g') : g'.WellFormed := by
  induction hgrows with
  | refl => exact hg
  | tail _ hstep ih => exact ih.step hstep

end WellFormed

theorem literal_extends (g : Graph) (v : Float) : g.Extends (g.literal v).2 := by
  unfold literal
  split
  · exact .refl g
  · exact (g.extends_push (.lit v)).trans ⟨rfl, rfl, rfl, rfl, fun hn => hn⟩

theorem share_extends (g : Graph) (app : Application) : g.Extends (g.share app).2 := by
  unfold share
  split
  · exact .refl g
  · exact (g.extends_push (.app app)).trans ⟨rfl, rfl, rfl, rfl, fun hn => hn⟩

theorem declare_extends (g : Graph) (name : String) : g.Extends (g.declare name).2 :=
  (g.extends_push (.var g.nextVariable name)).trans ⟨rfl, rfl, rfl, rfl, fun hn => hn⟩

theorem Grows.extends {g g' : Graph} (hgrows : g.Grows g') : g.Extends g' := by
  induction hgrows with
  | refl => exact .refl g
  | tail _ hstep ih =>
      apply ih.trans
      cases hstep with
      | declare name => exact declare_extends _ name
      | literal v => exact literal_extends _ v
      | share => exact share_extends _ _

end Graph

end ExprGraph
