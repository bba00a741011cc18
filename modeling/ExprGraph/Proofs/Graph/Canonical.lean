import Mathlib
import ExprGraph.Tree
import ExprGraph.Proofs.Graph.Building
import ExprGraph.Proofs.Graph.Traversal

/-!
# Canonical graphs

Every expression has one node, up to the operand order of commutative operators.  The tables give
literals and applications one node each, operands of commutative operators are stored in one order,
and variables have ids of their own; so nodes that unfold to the same tree are the same node, by
induction on the tree.
-/

namespace ExprGraph

/-- There is only one float that is not a number. -/
theorem float_eq_of_isNaN {u v : Float} (hu : u.isNaN = true) (hv : v.isNaN = true) : u = v := by
  have hbits : ∀ w : Float, w.isNaN = true →
      w.toModel.toBits.toBitVec = Float.Model.UnpackedFloat.packedNaN .binary64 := by
    intro w hw
    have hnan : (Float.Model.UnpackedFloat.unpack .binary64 w.toModel.toBits.toBitVec).isNaN =
        true := hw
    unfold Float.Model.UnpackedFloat.unpack at hnan
    dsimp only at hnan
    split_ifs at hnan with hexponent hmantissa
    · cases hnan
    · exact w.toModel.valid.eq_packedNaN hexponent hmantissa
    · cases hnan
    · cases hnan
    · cases hnan
  apply float_eq_of_toBits_eq
  exact UInt64.toBitVec_inj.mp ((hbits u hu).trans (hbits v hv).symm)

namespace Graph

variable {g g' : Graph}

/-- Operands are stored in order. -/
def Arranged (g : Graph) : Prop :=
  ∀ (h : Handle) (app : Application), g.node h = .ok (.app app) →
    app.op.arrange app.args = app.args

/-- The ids of variables come from the supply of the graph, and no two variables share one. -/
structure Numbered (g : Graph) : Prop where
  below {h : Handle} {id : Nat} {name : String} :
    g.node h = .ok (.var id name) → id < g.nextVariable
  distinct {h h' : Handle} {id : Nat} {name name' : String} :
    g.node h = .ok (.var id name) → g.node h' = .ok (.var id name') → h = h'

/-- What a step makes, beside the nodes there were. -/
theorem Step.node_cases (hstep : g.Step g') {h : Handle} {n : Node} (hn : g'.node h = .ok n) :
    g.node h = .ok n ∨
      (∃ name, n = .var g.nextVariable name ∧ h = (g.declare name).1 ∧
        g'.nextVariable = g.nextVariable + 1) ∨
      (∃ v, n = .lit v) ∨
      ∃ op args, n = .app ⟨op, op.arrange args⟩ ∧ (∀ a ∈ args, g.Live a) ∧
        g.simplify op args = .keep ∧ (g.folds = true → g.literalValues? args = none) := by
  cases hstep with
  | declare name =>
      rcases node_push_iff.mp (show (g.push (.var g.nextVariable name)).2.node h = .ok n from hn)
        with hold | ⟨hself, hnew⟩
      · exact .inl hold
      · exact .inr (.inl ⟨name, hnew.symm, hself, rfl⟩)
  | literal v =>
      unfold Graph.literal at hn
      split at hn
      · exact .inl hn
      · rcases node_push_iff.mp (show (g.push (.lit v)).2.node h = .ok n from hn)
          with hold | ⟨-, hnew⟩
        · exact .inl hold
        · exact .inr (.inr (.inl ⟨v, hnew.symm⟩))
  | @share op args _ hlive hkeep hfold =>
      unfold Graph.share at hn
      split at hn
      · exact .inl hn
      · rcases node_push_iff.mp
          (show (g.push (.app ⟨op, op.arrange args⟩)).2.node h = .ok n from hn)
          with hold | ⟨-, hnew⟩
        · exact .inl hold
        · exact .inr (.inr (.inr ⟨op, args, hnew.symm, hlive, hkeep, hfold⟩))

theorem Step.nextVariable_le (hstep : g.Step g') : g.nextVariable ≤ g'.nextVariable := by
  cases hstep with
  | declare name => exact Nat.le_succ _
  | literal v =>
      unfold Graph.literal
      split <;> exact le_rfl
  | share =>
      unfold Graph.share
      split <;> exact le_rfl

theorem Grows.nextVariable_le (hgrows : g.Grows g') : g.nextVariable ≤ g'.nextVariable := by
  induction hgrows with
  | refl => exact le_rfl
  | tail _ hstep ih => exact ih.trans hstep.nextVariable_le

theorem Arranged.step (hg : g.Arranged) (hstep : g.Step g') : g'.Arranged := by
  intro h app hn
  rcases hstep.node_cases hn with hold | ⟨name, hnew, -⟩ | ⟨v, hnew⟩ | ⟨op, args, hnew, -⟩
  · exact hg h app hold
  · cases hnew
  · cases hnew
  · cases hnew
    exact op.arrange_arrange args

theorem Numbered.step (hg : g.Numbered) (hstep : g.Step g') : g'.Numbered := by
  have hcases : ∀ {h id name}, g'.node h = .ok (.var id name) →
      g.node h = .ok (.var id name) ∨
        id = g.nextVariable ∧ h = g.handleAt g.nodes.size ∧ id < g'.nextVariable := by
    intro h id name hn
    rcases hstep.node_cases hn with hold | ⟨name, hnew, hself, hnext⟩ | ⟨v, hnew⟩ |
      ⟨op, args, hnew, -⟩
    · exact .inl hold
    · cases hnew
      exact .inr ⟨rfl, hself, hnext ▸ Nat.lt_succ_self _⟩
    · cases hnew
    · cases hnew
  constructor
  · intro h id name hn
    rcases hcases hn with hold | ⟨-, -, hlt⟩
    · exact (hg.below hold).trans_le hstep.nextVariable_le
    · exact hlt
  · intro h h' id name name' hn hn'
    rcases hcases hn with hold | ⟨rfl, rfl, -⟩
    · rcases hcases hn' with hold' | ⟨rfl, -, -⟩
      · exact hg.distinct hold hold'
      · exact absurd (hg.below hold) (Nat.lt_irrefl _)
    · rcases hcases hn' with hold' | ⟨-, rfl, -⟩
      · exact absurd (hg.below hold') (Nat.lt_irrefl _)
      · rfl

theorem Arranged.grows (hg : g.Arranged) (hgrows : g.Grows g') : g'.Arranged := by
  induction hgrows with
  | refl => exact hg
  | tail _ hstep ih => exact ih.step hstep

theorem Numbered.grows (hg : g.Numbered) (hgrows : g.Grows g') : g'.Numbered := by
  induction hgrows with
  | refl => exact hg
  | tail _ hstep ih => exact ih.step hstep

/-- Variables that come while a graph grows have ids that were not in use. -/
theorem Grows.var_cases (hgrows : g.Grows g') {h : Handle} {id : Nat} {name : String}
    (hn : g'.node h = .ok (.var id name)) :
    g.node h = .ok (.var id name) ∨ g.nextVariable ≤ id := by
  induction hgrows with
  | refl => exact .inl hn
  | @tail g₁ g₂ hfirst hstep ih =>
      rcases hstep.node_cases hn with hold | ⟨name, hnew, -, -⟩ | ⟨v, hnew⟩ | ⟨op, args, hnew, -⟩
      · exact ih hold
      · cases hnew
        exact .inr (Grows.nextVariable_le hfirst)
      · cases hnew
      · cases hnew

/-- A node and the tree it unfolds to. -/
inductive Unfolds (g : Graph) : Handle → Tree → Prop
  | var {h : Handle} {id : Nat} {name : String} :
      g.node h = .ok (.var id name) → Unfolds g h (.var id)
  | lit {h : Handle} {v : Float} : g.node h = .ok (.lit v) → Unfolds g h (.lit v)
  | unary {h a : Handle} {op : Op} {t : Tree} :
      g.node h = .ok (.app ⟨op, [a]⟩) → Unfolds g a t → Unfolds g h (.unary op t)
  | binary {h a b : Handle} {op : Op} {t u : Tree} :
      g.node h = .ok (.app ⟨op, [a, b]⟩) → Unfolds g a t → Unfolds g b u →
      Unfolds g h (.binary op t u)
  | select {h c a b : Handle} {s t u : Tree} :
      g.node h = .ok (.app ⟨.ifElse, [c, a, b]⟩) → Unfolds g c s → Unfolds g a t →
      Unfolds g b u → Unfolds g h (.select s t u)

theorem tree?_of_var {h : Handle} {id : Nat} {name : String}
    (hn : g.node h = .ok (.var id name)) : g.tree? h = some (.var id) := by
  rw [tree?, value?_of_var hn]
  simp [variableAt, hn, bind, Except.bind, Except.toOption]

theorem WellFormed.tree?_of_app (hg : g.WellFormed) {h : Handle} {app : Application}
    (hn : g.node h = .ok (.app app)) :
    g.tree? h = app.args.mapM g.tree? >>= Interpretation.free.applied? app.op :=
  hg.value?_of_app hn

/-- The tree of a node is what it unfolds to. -/
theorem WellFormed.unfolds_of_tree? (hg : g.WellFormed) {h : Handle} {t : Tree}
    (ht : g.tree? h = some t) : g.Unfolds h t := by
  have hlive : g.Live h := by
    cases hn : g.node h with
    | ok n => exact ⟨n, hn⟩
    | error e =>
        rw [tree?, value?_of_error hn] at ht
        cases ht
  induction h, hlive using hg.induction generalizing t with
  | step h n hn ih =>
      cases n with
      | var id name =>
          obtain rfl : .var id = t := Option.some.inj ((tree?_of_var hn).symm.trans ht)
          exact .var hn
      | lit v =>
          obtain rfl : .lit v = t := Option.some.inj ((value?_of_lit hn).symm.trans ht)
          exact .lit hn
      | app app =>
          obtain ⟨op, args⟩ := app
          rw [hg.tree?_of_app hn] at ht
          obtain ⟨trees, htrees, happlied⟩ := Option.bind_eq_some_iff.mp ht
          have hargs := map_eq_map_some_of_mapM htrees
          have hbelow : ∀ {a t}, a ∈ args → g.tree? a = some t → g.Unfolds a t :=
            fun {a t} ha hta => ih a (hg.live hn ha) ha hta
          have hlength := congrArg List.length hargs
          simp only [List.length_map] at hlength
          rcases op.arity_cases with hone | htwo | rfl
          · obtain ⟨a, rfl⟩ := List.length_eq_one_iff.mp ((hg.arity hn).trans hone)
            obtain ⟨s, rfl⟩ := List.length_eq_one_iff.mp hlength.symm
            cases happlied
            exact .unary hn (hbelow (by simp) (by simpa using hargs))
          · obtain ⟨a, b, rfl⟩ := List.length_eq_two.mp ((hg.arity hn).trans htwo)
            obtain ⟨s, s', rfl⟩ := List.length_eq_two.mp hlength.symm
            cases happlied
            simp only [List.map_cons, List.map_nil, List.cons.injEq, and_true] at hargs
            exact .binary hn (hbelow (by simp) hargs.1) (hbelow (by simp) hargs.2)
          · obtain ⟨c, a, b, rfl⟩ := List.length_eq_three.mp (hg.arity hn)
            obtain ⟨r, s, s', rfl⟩ := List.length_eq_three.mp hlength.symm
            cases happlied
            simp only [List.map_cons, List.map_nil, List.cons.injEq, and_true] at hargs
            exact .select hn (hbelow (by simp) hargs.1) (hbelow (by simp) hargs.2.1)
              (hbelow (by simp) hargs.2.2)

/-- Every live node unfolds to a tree. -/
theorem WellFormed.exists_tree? (hg : g.WellFormed) {h : Handle} (hlive : g.Live h) :
    ∃ t, g.tree? h = some t := by
  induction h, hlive using hg.induction with
  | step h n hn ih =>
      cases n with
      | var id name => exact ⟨_, tree?_of_var hn⟩
      | lit v => exact ⟨_, value?_of_lit hn⟩
      | app app =>
          have hargs : ∀ a ∈ app.args, ∃ t, g.tree? a = some t :=
            fun a ha => ih a (hg.live hn ha) ha
          have : Nonempty Tree := ⟨.var 0⟩
          choose! φ hφ using hargs
          rw [hg.tree?_of_app hn, mapM_eq_some_map hφ]
          exact Interpretation.free.exists_applied? (by rw [List.length_map, hg.arity hn])

/-- An application is stored once. -/
theorem WellFormed.eq_of_node_app (hg : g.WellFormed) {h h' : Handle} {app : Application}
    (hn : g.node h = .ok (.app app)) (hn' : g.node h' = .ok (.app app)) : h = h' :=
  Option.some.inj ((hg.operations.mpr hn).symm.trans (hg.operations.mpr hn'))

theorem WellFormed.eq_of_node_lit (hg : g.WellFormed) {h h' : Handle} {v : Float}
    (hn : g.node h = .ok (.lit v)) (hn' : g.node h' = .ok (.lit v)) : h = h' :=
  Option.some.inj ((hg.literals.mpr ⟨v, hn, rfl⟩).symm.trans (hg.literals.mpr ⟨v, hn', rfl⟩))

theorem Arranged.slot_le (hg : g.Arranged) {h a b : Handle} {op : Op}
    (hn : g.node h = .ok (.app ⟨op, [a, b]⟩)) (hop : op.isCommutative = true) :
    a.slot ≤ b.slot := by
  have harranged := hg h _ hn
  by_contra hslot
  rw [Op.arrange_of_swap hop (not_le.mp hslot)] at harranged
  simp only [List.cons.injEq, and_true] at harranged
  rw [harranged.1] at hslot
  exact hslot le_rfl

/-- Handles of one graph and epoch are told apart by their slots. -/
theorem eq_of_slot_eq {h h' : Handle} (hlive : g.Live h) (hlive' : g.Live h')
    (hslot : h.slot = h'.slot) : h = h' :=
  eq_of_placeOf_eq hlive hlive' (by rw [placeOf, placeOf, hslot])

/-- Nodes that unfold to alike trees are the same node. -/
theorem WellFormed.eq_of_alike (hg : g.WellFormed) (harranged : g.Arranged)
    (hnumbered : g.Numbered) {t t' : Tree} (halike : t.Alike t') {h h' : Handle}
    (ht : g.Unfolds h t) (ht' : g.Unfolds h' t') : h = h' := by
  induction halike generalizing h h' with
  | var id =>
      obtain ⟨hn⟩ := ht
      obtain ⟨hn'⟩ := ht'
      exact hnumbered.distinct hn hn'
  | lit v =>
      cases ht with
      | lit hn =>
          cases ht' with
          | lit hn' => exact hg.eq_of_node_lit hn hn'
  | unary op _ iha =>
      cases ht with
      | unary hn ha =>
          cases ht' with
          | unary hn' ha' =>
              obtain rfl := iha ha ha'
              exact hg.eq_of_node_app hn hn'
  | binary op _ _ iha ihb =>
      cases ht with
      | binary hn ha hb =>
          cases ht' with
          | binary hn' ha' hb' =>
              obtain rfl := iha ha ha'
              obtain rfl := ihb hb hb'
              exact hg.eq_of_node_app hn hn'
  | swapped hop _ _ iha ihb =>
      cases ht with
      | @binary _ a b _ _ _ hn ha hb =>
          cases ht' with
          | binary hn' ha' hb' =>
              obtain rfl := iha ha hb'
              obtain rfl := ihb hb ha'
              -- both orders of the operands are in order, so the operands are one node
              have hslot : a.slot = b.slot :=
                le_antisymm (harranged.slot_le hn hop) (harranged.slot_le hn' hop)
              obtain rfl := eq_of_slot_eq (hg.live hn (by simp)) (hg.live hn (by simp)) hslot
              exact hg.eq_of_node_app hn hn'
  | select _ _ _ ihc iha ihb =>
      cases ht with
      | select hn hc ha hb =>
          cases ht' with
          | select hn' hc' ha' hb' =>
              obtain rfl := ihc hc hc'
              obtain rfl := iha ha ha'
              obtain rfl := ihb hb hb'
              exact hg.eq_of_node_app hn hn'

/-- A graph in which every expression has one node. -/
structure Canonical (g : Graph) : Prop where
  arity {h : Handle} {app : Application} :
    g.node h = .ok (.app app) → app.args.length = app.op.arity
  /-- Operands are live, of the graph and epoch of their users, and made before them. -/
  operand {h a : Handle} {app : Application} : g.node h = .ok (.app app) → a ∈ app.args →
    g.Live a ∧ a.graph = h.graph ∧ a.epoch = h.epoch ∧ g.placeOf a < g.placeOf h
  sorted {h a b : Handle} {op : Op} : g.node h = .ok (.app ⟨op, [a, b]⟩) →
    op.isCommutative = true → a.slot ≤ b.slot
  operations {app : Application} {h : Handle} :
    g.operations[app]? = some h ↔ g.node h = .ok (.app app)
  literals {bits : UInt64} {h : Handle} :
    g.literals[bits]? = some h ↔ ∃ v, g.node h = .ok (.lit v) ∧ v.toBits = bits
  nan {h h' : Handle} {u v : Float} : g.node h = .ok (.lit u) → g.node h' = .ok (.lit v) →
    u.isNaN = true → v.isNaN = true → h = h'
  zeros {h h' : Handle} : g.node h = .ok (.lit 0.0) → g.node h' = .ok (.lit (-0.0)) → h ≠ h'
  acyclic {h a : Handle} : a ∈ g.argsOf h → ¬ g.Reaches a h
  unfolds {h : Handle} : g.Live h → ∃ t, g.tree? h = some t
  shared {h h' : Handle} {t t' : Tree} : g.tree? h = some t → g.tree? h' = some t' →
    t.Alike t' → h = h'

theorem WellFormed.canonical_of_numbered (hg : g.WellFormed) (harranged : g.Arranged)
    (hnumbered : g.Numbered) : g.Canonical where
  arity := hg.arity
  operand {h a app} hn ha := by
    have hlive := hg.live hn ha
    obtain ⟨hgraph, hepoch⟩ := graph_eq_of_live ⟨_, hn⟩
    obtain ⟨hgraph', hepoch'⟩ := graph_eq_of_live hlive
    exact ⟨hlive, hgraph'.trans hgraph.symm, hepoch'.trans hepoch.symm, hg.earlier hn ha⟩
  sorted := harranged.slot_le
  operations := hg.operations
  literals := hg.literals
  nan hn hn' hu hv := by
    obtain rfl := float_eq_of_isNaN hu hv
    exact hg.eq_of_node_lit hn hn'
  zeros hn hn' hsame := by
    rw [hsame] at hn
    have hbits : (0.0 : Float) = -0.0 := Node.lit.inj (Except.ok.inj (hn.symm.trans hn'))
    exact absurd hbits (by decide)
  acyclic := hg.not_reaches_of_mem_argsOf
  unfolds := hg.exists_tree?
  shared ht ht' halike :=
    hg.eq_of_alike harranged hnumbered halike (hg.unfolds_of_tree? ht) (hg.unfolds_of_tree? ht')

end Graph

end ExprGraph
