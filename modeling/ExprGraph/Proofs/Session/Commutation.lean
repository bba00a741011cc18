import Mathlib
import ExprGraph.Proofs.Graph.Commutation
import ExprGraph.Proofs.Session.Rebuilding

/-!
# Commutative operations in a session

A commutative operation has one answer and one effect for both orders of its operands, in every
graph of every session, with one exception: the sum of a positive and a negative zero is the zero
that is written second.
-/

namespace ExprGraph

open ExprGraph.Graph

theorem Op.isCommutative_iff {op : Op} :
    op.isCommutative = true ↔ op ∈ [Op.add, .mul, .eq, .ne] := by
  cases op <;> decide

namespace Session

/-- What the order of the operands of an operation shows.  The operation succeeds, the order does
not show unless the two zeros are added, and then their sum is the second one. -/
structure Swaps (s : Session) (graph : Nat) (memo : Option Nat) (g : Graph) (op : Op)
    (a b : Handle) : Prop where
  succeeds : ∃ h, (s.step (.call graph memo (.operation op [a, b]))).1 = .ok (.handle h)
  step_eq_iff : s.step (.call graph memo (.operation op [a, b])) =
    s.step (.call graph memo (.operation op [b, a])) ↔ ¬(op = .add ∧ g.ZeroPair a b)
  zeros : op = .add → g.ZeroPair a b →
    s.Settled (.call graph memo (.operation op [a, b])) (.handle b)

/-- The order of the operands of a commutative operator does not show in a session, unless the two
zeros are added. -/
theorem Reachable.swaps {s : Session} (hs : s.Reachable) {graph : Nat} {g : Graph}
    (hg : s.graph? graph = some g) (memo : Option Nat) {op : Op}
    (hop : op ∈ [Op.add, .mul, .eq, .ne]) {a b : Handle} (ha : g.Live a) (hb : g.Live b) :
    s.Swaps graph memo g op a b := by
  have hcommutative := Op.isCommutative_iff.mpr hop
  have harity : op.arity = 2 := op.arity_eq_two_of_isCommutative hcommutative
  have hstep : s.step (.call graph memo (.operation op [a, b])) = _ :=
    step_operation hg memo harity.symm (by simp [ha, hb])
  have hstep' : s.step (.call graph memo (.operation op [b, a])) = _ :=
    step_operation hg memo harity.symm (by simp [ha, hb])
  have hwf := hs.wellFormed.graph hg
  refine ⟨⟨_, congrArg Prod.fst hstep⟩, ?_, ?_⟩
  · constructor
    · rintro hsame ⟨rfl, hzeros⟩
      rw [hstep, hstep'] at hsame
      exact hzeros.build_ne (Answer.handle.inj (Except.ok.inj (congrArg Prod.fst hsame)))
    · intro hpair
      rw [hstep, hstep', hwf.build_swap hcommutative ha hb hpair]
  · rintro rfl ⟨hzero, -, -⟩
    exact settled_of_build_eq hg rfl (by simp [ha, hb]) (build_add_of_isZero hzero) memo

/-- The product of a variable and its square is one node for both orders. -/
theorem swaps_square : square.Reachable ∧ square.graph? 0 = some squareGraph ∧
    Op.mul ∈ [Op.add, .mul, .eq, .ne] ∧ squareGraph.Live ⟨0, 0, 1⟩ ∧ squareGraph.Live ⟨1, 0, 1⟩ ∧
    square.step (.call 0 none (.operation .mul [⟨0, 0, 1⟩, ⟨1, 0, 1⟩])) =
      square.step (.call 0 none (.operation .mul [⟨1, 0, 1⟩, ⟨0, 0, 1⟩])) := by
  have hop : Op.mul ∈ [Op.add, .mul, .eq, .ne] := by decide
  have hvar : squareGraph.Live ⟨0, 0, 1⟩ := ⟨.var 1 "x", rfl⟩
  have hsquare : squareGraph.Live ⟨1, 0, 1⟩ := ⟨.app ⟨.mul, [⟨0, 0, 1⟩, ⟨0, 0, 1⟩]⟩, rfl⟩
  have hswaps := reachable_square.swaps graph?_square none hop hvar hsquare
  exact ⟨reachable_square, graph?_square, hop, hvar, hsquare,
    hswaps.step_eq_iff.mpr fun hadd => nomatch hadd.1⟩

/-- A session with a graph that folds, and the two zeros in it. -/
def zeros : Session :=
  start.run [.newGraph true, .call 0 none (.literal 0.0), .call 0 none (.literal (-0.0))]

/-- The graph with the positive zero. -/
def zeroGraph : Graph where
  id := 1
  nodes := #[.lit 0.0]
  literals := Std.HashMap.insert {} (0.0 : Float).toBits ⟨0, 0, 1⟩

/-- The graph with the two zeros. -/
def zerosGraph : Graph where
  id := 1
  nodes := #[.lit 0.0, .lit (-0.0)]
  literals := (Std.HashMap.insert {} (0.0 : Float).toBits ⟨0, 0, 1⟩).insert
    (-0.0 : Float).toBits ⟨1, 0, 1⟩

theorem graph?_zeros : zeros.graph? 0 = some zerosGraph := by
  have hbits : ((0.0 : Float).toBits == (-0.0 : Float).toBits) = false := by decide
  have hpositive : (Graph.empty 1 true).literal 0.0 = (⟨0, 0, 1⟩, zeroGraph) := by
    simp [zeroGraph, Graph.literal, Graph.empty, Graph.push, Graph.handleAt, recycle]
  have hnegative : zeroGraph.literal (-0.0) = (⟨1, 0, 1⟩, zerosGraph) := by
    simp [zeroGraph, zerosGraph, Graph.literal, Graph.push, Graph.handleAt, recycle, hbits]
  have hempty : (start.step (.newGraph true)).2.graph? 0 = some (Graph.empty 1 true) := rfl
  have hfirst := graph?_step_literal hempty none 0.0
  have hsecond := graph?_step_literal hfirst none (-0.0)
  rw [hpositive, hnegative] at hsecond
  exact hsecond

/-- The sum of the two zeros depends on their order. -/
theorem step_ne_zeros : zeros.Reachable ∧ zeros.graph? 0 = some zerosGraph ∧
    zerosGraph.node ⟨0, 0, 1⟩ = .ok (.lit 0.0) ∧ zerosGraph.node ⟨1, 0, 1⟩ = .ok (.lit (-0.0)) ∧
    (zeros.step (.call 0 none (.operation .add [⟨0, 0, 1⟩, ⟨1, 0, 1⟩]))).1 =
      .ok (.handle ⟨1, 0, 1⟩) ∧
    (zeros.step (.call 0 none (.operation .add [⟨1, 0, 1⟩, ⟨0, 0, 1⟩]))).1 =
      .ok (.handle ⟨0, 0, 1⟩) ∧
    zeros.step (.call 0 none (.operation .add [⟨0, 0, 1⟩, ⟨1, 0, 1⟩])) ≠
      zeros.step (.call 0 none (.operation .add [⟨1, 0, 1⟩, ⟨0, 0, 1⟩])) := by
  have hpositive : zerosGraph.node ⟨0, 0, 1⟩ = .ok (.lit 0.0) := rfl
  have hnegative : zerosGraph.node ⟨1, 0, 1⟩ = .ok (.lit (-0.0)) := rfl
  have hlive : zerosGraph.Live ⟨0, 0, 1⟩ := ⟨_, hpositive⟩
  have hlive' : zerosGraph.Live ⟨1, 0, 1⟩ := ⟨_, hnegative⟩
  have hsum : zeros.Settled (.call 0 none (.operation .add [⟨0, 0, 1⟩, ⟨1, 0, 1⟩]))
      (.handle ⟨1, 0, 1⟩) :=
    settled_of_build_eq graph?_zeros rfl (by simp [hlive, hlive'])
      (build_add_of_isZero (by decide)) none
  have hsum' : zeros.Settled (.call 0 none (.operation .add [⟨1, 0, 1⟩, ⟨0, 0, 1⟩]))
      (.handle ⟨0, 0, 1⟩) :=
    settled_of_build_eq graph?_zeros rfl (by simp [hlive, hlive'])
      (build_add_of_isZero (by decide)) none
  refine ⟨⟨_, rfl⟩, graph?_zeros, hpositive, hnegative, hsum.answer, hsum'.answer, fun hsame => ?_⟩
  have hanswer := hsum.answer.symm.trans ((congrArg Prod.fst hsame).trans hsum'.answer)
  exact absurd (Answer.handle.inj (Except.ok.inj hanswer)) (by decide)

end Session

end ExprGraph
