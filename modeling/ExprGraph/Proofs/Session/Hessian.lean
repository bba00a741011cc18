import Mathlib
import ExprGraph.Proofs.Derivative.Curvature
import ExprGraph.Proofs.Session.Product

/-!
# Hessians in sessions are symmetric

Each of the two triangles of a Hessian is built on its own: an entry is the derivative of one entry
of the gradient, and its mirror image the derivative of another.  The nodes are different ones; over
a field their values are the same.
-/

namespace ExprGraph

open ExprGraph.Graph

namespace Graph

/-- A square matrix of nodes whose entries have values that do not change when it is mirrored. -/
structure Symmetric {R : Type} (g : Graph) (interp : Interpretation R) (assign : Handle → R)
    (m : Matrix Handle) (size : Nat) : Prop where
  rows_eq : m.rows = size
  cols_eq : m.cols = size
  mirror {i j : Nat} : i < size → j < size → ∃ d d' v, m.get? i j = some d ∧ m.get? j i = some d' ∧
    g.value? interp (fun x => some (assign x)) d = some v ∧
    g.value? interp (fun x => some (assign x)) d' = some v

theorem EntriesEq.symmetric {R : Type} {g : Graph} {interp : Interpretation R}
    {assign : Handle → R} {m : Matrix Handle} {size : Nat} {entry : Nat → Nat → R}
    (hm : g.EntriesEq interp assign m size size entry)
    (hentry : ∀ i j, entry i j = entry j i) : g.Symmetric interp assign m size where
  rows_eq := hm.rows_eq
  cols_eq := hm.cols_eq
  mirror {i j} hi hj := by
    obtain ⟨d, hget, hvalue⟩ := hm.value hi hj
    obtain ⟨d', hget', hvalue'⟩ := hm.value hj hi
    exact ⟨d, d', entry i j, hget, hget', hvalue, hentry i j ▸ hvalue'⟩

end Graph

namespace Session

variable {s : Session} {graph : Nat} {g : Graph}

/-- Hessians are symmetric, at values of the variables for which no power below the node has the
base zero. -/
theorem Reachable.hessian_symmetric (hs : s.Reachable) (hg : s.graph? graph = some g)
    (hfolds : g.folds = false) {memo : Option Nat} (hmemo : memo = none ∨ s.ReachableInRange)
    {node : Handle} {vars : List Handle} (hlive : g.Live node)
    (hvars : ∀ var ∈ vars, g.IsVariable var) {K : Type} [Field K] {interp : Interpretation K}
    (hinterp : interp.Exact)
    (hpow : ∀ a b : K, a ≠ 0 → interp.binary .pow a b = a * interp.binary .pow a (b - 1))
    (assign : Handle → K) (hbases : g.BasesNonzero interp assign node) :
    ∃ m w, DiffM.hessian node vars ⟨g, s.memoFor memo⟩ = .ok m w ∧
      w.graph.Symmetric interp assign m vars.length := by
  have hw := hs.ready hg hmemo
  obtain ⟨m, w, hrun, hm⟩ := DiffM.hessian_entries hw hfolds hlive hvars
    ⟨K, interp, hinterp.lawful, assign⟩
  refine ⟨m, w, hrun, hm.symmetric fun i j => ?_⟩
  exact hw.graph.curvatureOf_comm hinterp hpow assign hlive hbases _ _

/-- A session with a variable to the power of another. -/
def power : Session :=
  start.run [.newGraph false, .call 0 none (.declare "x"), .call 0 none (.declare "y"),
    .call 0 none (.operation .pow [⟨0, 0, 1⟩, ⟨1, 0, 1⟩])]

/-- The graph with two variables. -/
def twoVariablesGraph : Graph :=
  { id := 1, folds := false, nodes := #[.var 1 "x", .var 2 "y"], nextVariable := 3 }

/-- The graph with a variable to the power of another. -/
def powerGraph : Graph :=
  { twoVariablesGraph with
    nodes := #[.var 1 "x", .var 2 "y", .app ⟨.pow, [⟨0, 0, 1⟩, ⟨1, 0, 1⟩]⟩]
    operations := Std.HashMap.insert {} ⟨.pow, [⟨0, 0, 1⟩, ⟨1, 0, 1⟩]⟩ ⟨2, 0, 1⟩ }

theorem graph?_power : power.graph? 0 = some powerGraph := by
  let before : Session := start.run
    [.newGraph false, .call 0 none (.declare "x"), .call 0 none (.declare "y")]
  have hbefore : before.graph? 0 = some twoVariablesGraph := rfl
  have hlive : ∀ a ∈ ([⟨0, 0, 1⟩, ⟨1, 0, 1⟩] : List Handle), twoVariablesGraph.Live a :=
    List.forall_mem_cons.mpr ⟨⟨_, rfl⟩, List.forall_mem_singleton.mpr ⟨_, rfl⟩⟩
  have hbuild : twoVariablesGraph.build .pow [⟨0, 0, 1⟩, ⟨1, 0, 1⟩] = (⟨2, 0, 1⟩, powerGraph) := by
    simp [twoVariablesGraph, powerGraph, Graph.build, Graph.simplify, Graph.isZero, Graph.isOne,
      Graph.holds, Graph.node, Graph.placeOf, recycle, Node.isZero, Node.isOne, Graph.settle,
      Graph.share, Op.arrange, Graph.push, Graph.handleAt]
  exact graph?_step_operation hbefore none rfl hlive hbuild

end Session

namespace Interpretation

/-- An exact interpretation in the rational numbers with the powers by whole exponents. -/
def wholePowers : Interpretation ℚ where
  literal := rational.literal
  unary := rational.unary
  binary op a b :=
    if op = .pow then if (⌊b⌋ : ℚ) = b then a ^ ⌊b⌋ else 0 else rational.binary op a b
  choose := rational.choose

theorem wholePowers_exact : wholePowers.Exact where
  literal_zero := rational_exact.literal_zero
  literal_one := rational_exact.literal_one
  literal_neg_one := rational_exact.literal_neg_one
  literal_ne_zero := rational_exact.literal_ne_zero
  add := rational_exact.add
  sub := rational_exact.sub
  mul := rational_exact.mul
  div := rational_exact.div
  neg := rational_exact.neg
  pow_zero a := by simp [wholePowers]
  pow_one a := by simp [wholePowers]
  eq_comm := rational_exact.eq_comm
  ne_comm := rational_exact.ne_comm
  choose_zero := rational_exact.choose_zero
  choose_ne_zero := rational_exact.choose_ne_zero

theorem wholePowers_lower (a b : ℚ) (ha : a ≠ 0) :
    wholePowers.binary .pow a b = a * wholePowers.binary .pow a (b - 1) := by
  have hfloor : ((⌊b - 1⌋ : ℤ) : ℚ) = ⌊b⌋ - 1 := by
    rw [Int.floor_sub_one, Int.cast_sub, Int.cast_one]
  simp only [wholePowers, if_true, hfloor, sub_left_inj]
  split
  · rw [Int.floor_sub_one, zpow_sub_one₀ ha]
    field_simp
  · exact (mul_zero a).symm

end Interpretation

namespace Session

/-- The second derivatives of `x ^ y` by `x` and `y`, at three for both. -/
theorem hessian_symmetric_power :
    power.Reachable ∧ power.graph? 0 = some powerGraph ∧ powerGraph.folds = false ∧
    powerGraph.Live ⟨2, 0, 1⟩ ∧
    (∀ var ∈ ([⟨0, 0, 1⟩, ⟨1, 0, 1⟩] : List Handle), powerGraph.IsVariable var) ∧
    Interpretation.wholePowers.Exact ∧
    (∀ a b : ℚ, a ≠ 0 → Interpretation.wholePowers.binary .pow a b =
      a * Interpretation.wholePowers.binary .pow a (b - 1)) ∧
    powerGraph.BasesNonzero Interpretation.wholePowers (fun _ => 3) ⟨2, 0, 1⟩ ∧
    ∃ m w, DiffM.hessian ⟨2, 0, 1⟩ [⟨0, 0, 1⟩, ⟨1, 0, 1⟩] ⟨powerGraph, power.memoFor none⟩ =
        .ok m w ∧
      w.graph.Symmetric Interpretation.wholePowers (fun _ => 3) m 2 := by
  have hreachable : power.Reachable := ⟨_, rfl⟩
  have hfirst : powerGraph.node ⟨0, 0, 1⟩ = .ok (.var 1 "x") := rfl
  have hsecond : powerGraph.node ⟨1, 0, 1⟩ = .ok (.var 2 "y") := rfl
  have hnode : powerGraph.node ⟨2, 0, 1⟩ = .ok (.app ⟨.pow, [⟨0, 0, 1⟩, ⟨1, 0, 1⟩]⟩) := rfl
  have hvars : ∀ var ∈ ([⟨0, 0, 1⟩, ⟨1, 0, 1⟩] : List Handle), powerGraph.IsVariable var :=
    List.forall_mem_cons.mpr ⟨⟨_, _, hfirst⟩, List.forall_mem_singleton.mpr ⟨_, _, hsecond⟩⟩
  have hbases : powerGraph.BasesNonzero Interpretation.wholePowers (fun _ => 3) ⟨2, 0, 1⟩ := by
    intro h base exponent hreaches happ
    cases hreaches with
    | refl =>
        obtain ⟨rfl, -⟩ : ⟨0, 0, 1⟩ = base ∧ ⟨1, 0, 1⟩ = exponent := by
          simpa [hnode] using happ
        rw [Graph.value?_of_var hfirst]
        decide
    | step ha hreaches =>
        -- below the power there are variables only
        have hmem : _ ∈ ([⟨0, 0, 1⟩, ⟨1, 0, 1⟩] : List Handle) := ha
        obtain ⟨id, name, hvar⟩ := hvars _ hmem
        cases hreaches with
        | refl => cases hvar.symm.trans happ
        | step ha' _ =>
            rw [argsOf_of_node hvar] at ha'
            cases ha'
  refine ⟨hreachable, graph?_power, rfl, ⟨_, hnode⟩, hvars, Interpretation.wholePowers_exact,
    Interpretation.wholePowers_lower, hbases, ?_⟩
  exact hreachable.hessian_symmetric graph?_power rfl (.inl rfl) ⟨_, hnode⟩ hvars
    Interpretation.wholePowers_exact Interpretation.wholePowers_lower _ hbases

end Session

end ExprGraph
