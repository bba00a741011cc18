import Mathlib
import ExprGraph.Proofs.Graph.Building
import ExprGraph.Proofs.Session.WellFormed

/-!
# Construction preserves meaning

Over a field, the node that is built for an application has the value of the operator at the values
of its operands, in every graph of every session.  Folding is the one exception: a folded literal
has that value only if it reads as the operator of the literals it was computed from.  Sums,
products and the other arithmetic that is made of several applications follow, in a graph that does
not fold.
-/

namespace ExprGraph

namespace Graph

variable {g : Graph}

/-- The values of literals are those the interpretation gives them. -/
theorem map_read_of_literalValues? {r : Reading} {args : List Handle} {literals : List Float}
    (hliterals : g.literalValues? args = some literals) :
    args.map (g.read r) = literals.map r.interp.literal := by
  induction args generalizing literals with
  | nil =>
      cases hliterals
      rfl
  | cons a rest ih =>
      rw [literalValues?] at hliterals
      split at hliterals
      · next v hn =>
        obtain ⟨others, hothers, rfl⟩ := Option.map_eq_some_iff.mp hliterals
        rw [List.map_cons, List.map_cons, ih hothers, read_of_lit hn]
      · cases hliterals

/-- An application folds only when all of its operands are literals. -/
theorem exists_literalValues_of_folded {op : Op} {args : List Handle} {v : Float}
    (hfolded : g.folded? op args = some v) : ∃ literals, g.literalValues? args = some literals := by
  have hsettled : ∀ {op args}, g.settledLiteral? op args = some v →
      ∃ literals, g.literalValues? args = some literals := by
    intro op args hsettled
    obtain ⟨literals, hliterals, -⟩ := Option.map_eq_some_iff.mp hsettled
    split_ifs at hliterals
    exact ⟨literals, hliterals⟩
  unfold folded? at hfolded
  split at hfolded
  · exact hsettled hfolded
  · next a hneg =>
    split_ifs at hfolded
    obtain ⟨literals, hliterals⟩ := hsettled hfolded
    -- the operand that is not negated is the literal that the identity looks for
    have hnegated : ∃ u, g.node a = .ok (.lit u) := by
      rw [literalValues?] at hliterals
      split at hliterals
      · next u hu => exact ⟨u, hu⟩
      · cases hliterals
    obtain ⟨u, hu⟩ := hnegated
    cases identity_of_simplify hneg nofun with
    | zero_sub ha =>
        obtain ⟨z, hz, -⟩ := isZero_iff.mp ha
        exact ⟨[z, u], by simp [literalValues?, hz, hu]⟩
    | neg_one_mul ha =>
        exact ⟨[-1.0, u], by simp [literalValues?, isNegOne_iff.mp ha, hu]⟩
    | mul_neg_one hb =>
        exact ⟨[u, -1.0], by simp [literalValues?, isNegOne_iff.mp hb, hu]⟩
    | div_neg_one hb =>
        exact ⟨[u, -1.0], by simp [literalValues?, isNegOne_iff.mp hb, hu]⟩
  · cases hfolded

section Values

variable {K : Type} [Field K]

/-- Work succeeds with a node that has a stated value. -/
def Builds (g : Graph) (interp : Interpretation K) (assign : Handle → K) (work : BuildM Handle)
    (v : K) : Prop :=
  ∃ h g', work g = .ok h g' ∧ g'.value? interp (fun x => some (assign x)) h = some v

/-- Nodes that are built have the values that their construction says, given the values of the
nodes there are. -/
structure BuildsValues (g : Graph) (interp : Interpretation K) (assign : Handle → K)
    (value : Handle → K) : Prop where
  existing {h : Handle} : g.Live h → g.value? interp (fun x => some (assign x)) h = some (value h)
  /-- No call changes the value of a node, whatever becomes of the call. -/
  unchanged (call : Call) (memo : Memo) {h : Handle} : g.Live h →
    (endState call.run ⟨g, memo⟩).graph.value? interp (fun x => some (assign x)) h =
      some (value h)
  /-- If the application folds, the folded literal must read as the operator of the literals. -/
  operation {op : Op} {args : List Handle} : args.length = op.arity → (∀ a ∈ args, g.Live a) →
    (∀ v literals, g.folded? op args = some v → g.literalValues? args = some literals →
      interp.applied? op (literals.map interp.literal) = some (interp.literal v)) →
    ∃ v, interp.applied? op (args.map value) = some v ∧
      g.Builds interp assign (BuildM.operation op args) v
  sum {terms : List Handle} : g.folds = false → (∀ t ∈ terms, g.Live t) →
    g.Builds interp assign (BuildM.sum terms) ((terms.map value).foldl (· + ·) 0)
  product {factors : List Handle} : g.folds = false → (∀ f ∈ factors, g.Live f) →
    g.Builds interp assign (BuildM.product factors) ((factors.map value).foldl (· * ·) 1)
  dot {left right : List Handle} : g.folds = false → left.length = right.length →
    (∀ a ∈ left, g.Live a) → (∀ b ∈ right, g.Live b) →
    g.Builds interp assign (BuildM.dot left right)
      (((left.zip right).map fun (a, b) => value a * value b).foldl (· + ·) 0)
  neg {a : Handle} : g.folds = false → g.Live a →
    g.Builds interp assign (BuildM.operation .neg [a]) (-value a)
  scale (factor : Float) {a : Handle} : g.folds = false → g.Live a →
    g.Builds interp assign (BuildM.scale factor a) (interp.literal factor * value a)
  square {a : Handle} : g.folds = false → g.Live a →
    g.Builds interp assign (BuildM.square a) (value a * value a)
  powLiteral {a : Handle} (exponent : Float) : g.folds = false → g.Live a →
    g.Builds interp assign (BuildM.powLiteral a exponent)
      (interp.binary .pow (value a) (interp.literal exponent))

/-- Work that succeeds with a node of some value builds that value. -/
theorem WellFormed.builds (hg : g.WellFormed) (hfolds : g.folds = false) {interp : Interpretation K}
    (hinterp : interp.Exact) (assign : Handle → K) {work : BuildM Handle} {f : ∀ r : Reading, r.R}
    (hwork : Succeeds Grows work g fun h g' => g'.Denotes h f) :
    g.Builds interp assign work (f ⟨K, interp, hinterp.lawful, assign⟩) := by
  obtain ⟨h, g', hrun, hgrows, hh⟩ := hwork
  exact ⟨h, g', hrun, hh.value?_eq (hg.grows hgrows) (hgrows.extends.folds.trans hfolds)
    ⟨K, interp, hinterp.lawful, assign⟩⟩

/-- An application is built with the value of its operator, unless it folds to a literal that does
not read so. -/
theorem WellFormed.builds_operation (hg : g.WellFormed) {interp : Interpretation K}
    (hinterp : interp.Exact) (assign : Handle → K) {op : Op} {args : List Handle}
    (harity : args.length = op.arity) (hlive : ∀ a ∈ args, g.Live a)
    (hfolded : ∀ v literals, g.folded? op args = some v → g.literalValues? args = some literals →
      interp.applied? op (literals.map interp.literal) = some (interp.literal v)) :
    ∃ v, interp.applied? op (args.map (g.eval interp assign)) = some v ∧
      g.Builds interp assign (BuildM.operation op args) v := by
  have hcount : (args.map (g.eval interp assign)).length = op.arity := by
    rw [List.length_map, harity]
  obtain ⟨v, hv⟩ := interp.exists_applied? hcount
  have hread := hg.read_build harity hlive ⟨K, interp, hinterp.lawful, assign⟩ fun u hu => by
    obtain ⟨literals, hliterals⟩ := exists_literalValues_of_folded hu
    rw [map_read_of_literalValues? hliterals, Interpretation.apply,
      hfolded u literals hu hliterals, Option.getD_some]
  have happly : interp.apply op (args.map (g.eval interp assign)) = v := by
    rw [Interpretation.apply, hv, Option.getD_some]
  refine ⟨v, hv, _, _, BuildM.operation_eq harity hlive, ?_⟩
  rw [(hg.grows (build_grows harity hlive)).value?_eq_eval interp assign (hg.live_build hlive)]
  exact congrArg some (hread.trans happly)

theorem WellFormed.buildsValues_eval (hg : g.WellFormed) {interp : Interpretation K}
    (hinterp : interp.Exact) (assign : Handle → K) :
    g.BuildsValues interp assign (g.eval interp assign) where
  existing hlive := hg.value?_eq_eval interp assign hlive
  unchanged call memo h hlive := by
    have hgrows : g.Grows (endState call.run ⟨g, memo⟩).graph := call.run_keeps ⟨g, memo⟩
    rw [hg.value?_extends (hg.grows hgrows) hgrows.extends interp _ hlive]
    exact hg.value?_eq_eval interp assign hlive
  operation harity hlive hfolded := hg.builds_operation hinterp assign harity hlive hfolded
  sum {terms} hfolds hlive := by
    have hbuilds := hg.builds hfolds hinterp assign
      (BuildM.sum_succeeds hg (denotes_list_read hlive))
    rw [List.map_map, List.sum_eq_foldl] at hbuilds
    exact hbuilds
  product {factors} hfolds hlive := by
    have hbuilds := hg.builds hfolds hinterp assign
      (BuildM.product_succeeds hg (denotes_list_read hlive))
    rw [List.map_map, List.prod_eq_foldl] at hbuilds
    exact hbuilds
  dot hfolds hlength hleft hright := by
    have hbuilds := hg.builds hfolds hinterp assign (BuildM.dot_succeeds hg hlength hleft hright)
    rw [List.sum_eq_foldl] at hbuilds
    exact hbuilds
  neg hfolds hlive :=
    hg.builds hfolds hinterp assign (BuildM.neg_succeeds hg (.of_live hlive))
  scale factor _ hfolds hlive :=
    hg.builds hfolds hinterp assign (BuildM.scale_succeeds hg factor (.of_live hlive))
  square hfolds hlive :=
    hg.builds hfolds hinterp assign (BuildM.mul_succeeds hg (.of_live hlive) (.of_live hlive))
  powLiteral exponent hfolds hlive :=
    hg.builds hfolds hinterp assign (BuildM.powLiteral_succeeds hg (.of_live hlive) exponent)

end Values

end Graph

namespace Session

/-- Construction preserves meaning, whatever the session has been through. -/
theorem Reachable.buildsValues {s : Session} (hs : s.Reachable) {graph : Nat} {g : Graph}
    (hg : s.graph? graph = some g) {K : Type} [Field K] {interp : Interpretation K}
    (hinterp : interp.Exact) (assign : Handle → K) :
    ∃ value, g.BuildsValues interp assign value :=
  ⟨_, (hs.wellFormed.graph hg).buildsValues_eval hinterp assign⟩

/-- A session with a graph that folds, and the literals one and minus one in it. -/
def units : Session :=
  start.run [.newGraph true, .call 0 none (.literal 1.0), .call 0 none (.literal (-1.0))]

/-- The graph with the literal one. -/
def oneGraph : Graph where
  id := 1
  nodes := #[.lit 1.0]
  literals := Std.HashMap.insert {} (1.0 : Float).toBits ⟨0, 0, 1⟩

/-- The graph with the literals one and minus one. -/
def unitsGraph : Graph where
  id := 1
  nodes := #[.lit 1.0, .lit (-1.0)]
  literals := (Std.HashMap.insert {} (1.0 : Float).toBits ⟨0, 0, 1⟩).insert
    (-1.0 : Float).toBits ⟨1, 0, 1⟩

/-- The literals are told apart by their bits. -/
theorem graph?_units : units.graph? 0 = some unitsGraph := by
  have hbits : ((1.0 : Float).toBits == (-1.0 : Float).toBits) = false := by decide
  have hone : (Graph.empty 1 true).literal 1.0 = (⟨0, 0, 1⟩, oneGraph) := by
    simp [oneGraph, Graph.literal, Graph.empty, Graph.push, Graph.handleAt, recycle]
  have htwo : oneGraph.literal (-1.0) = (⟨1, 0, 1⟩, unitsGraph) := by
    simp [oneGraph, unitsGraph, Graph.literal, Graph.push, Graph.handleAt, recycle, hbits]
  have hempty : (start.step (.newGraph true)).2.graph? 0 = some (Graph.empty 1 true) := rfl
  have hfirst := graph?_step_literal hempty none 1.0
  have hsecond := graph?_step_literal hfirst none (-1.0)
  rw [hone, htwo] at hsecond
  exact hsecond

/-- One minus minus one folds, to a literal that reads as two; so it has the value two. -/
theorem buildsValues_units : units.Reachable ∧ units.graph? 0 = some unitsGraph ∧
    unitsGraph.folded? .sub [⟨0, 0, 1⟩, ⟨1, 0, 1⟩] = some 2.0 ∧
    Interpretation.rational.Exact ∧
    unitsGraph.Builds Interpretation.rational (fun _ => 0)
      (BuildM.operation .sub [⟨0, 0, 1⟩, ⟨1, 0, 1⟩]) 2 := by
  have hreachable : units.Reachable := ⟨_, rfl⟩
  have hfolded : unitsGraph.folded? .sub [⟨0, 0, 1⟩, ⟨1, 0, 1⟩] = some 2.0 := by decide
  refine ⟨hreachable, graph?_units, hfolded, Interpretation.rational_exact, ?_⟩
  obtain ⟨value, hvalues⟩ :=
    hreachable.buildsValues graph?_units Interpretation.rational_exact fun _ => 0
  have hone : unitsGraph.node ⟨0, 0, 1⟩ = .ok (.lit 1.0) := rfl
  have hminus : unitsGraph.node ⟨1, 0, 1⟩ = .ok (.lit (-1.0)) := rfl
  have hlive : ∀ a ∈ ([⟨0, 0, 1⟩, ⟨1, 0, 1⟩] : List Handle), unitsGraph.Live a := by
    intro a ha
    rcases List.mem_pair.mp ha with rfl | rfl
    exacts [⟨_, hone⟩, ⟨_, hminus⟩]
  have hvalue : value ⟨0, 0, 1⟩ = 1 :=
    (Option.some.inj ((hvalues.existing ⟨_, hone⟩).symm.trans (Graph.value?_of_lit hone))).trans
      Interpretation.rational_exact.literal_one
  have hvalue' : value ⟨1, 0, 1⟩ = -1 :=
    (Option.some.inj ((hvalues.existing ⟨_, hminus⟩).symm.trans (Graph.value?_of_lit hminus))).trans
      Interpretation.rational_exact.literal_neg_one
  have harity : ([⟨0, 0, 1⟩, ⟨1, 0, 1⟩] : List Handle).length = Op.sub.arity := rfl
  obtain ⟨v, hv, hbuilds⟩ := hvalues.operation harity hlive fun u literals hu hliterals => by
    obtain rfl : u = 2.0 := Option.some.inj (hu.symm.trans hfolded)
    obtain rfl : literals = [1.0, -1.0] := Option.some.inj (hliterals.symm.trans rfl)
    have htwo : Interpretation.rational.literal 2.0 = 2 := by decide
    simp only [List.map_cons, List.map_nil, Interpretation.rational_exact.literal_one,
      Interpretation.rational_exact.literal_neg_one, htwo]
    exact congrArg some (show (1 : ℚ) - -1 = 2 by norm_num)
  rw [List.map_cons, List.map_cons, List.map_nil, hvalue, hvalue'] at hv
  obtain rfl : 2 = v := (show (2 : ℚ) = 1 - -1 by norm_num).trans (Option.some.inj hv)
  exact hbuilds

end Session

end ExprGraph
