import Mathlib
import ExprGraph.Proofs.Derivative.Requests
import ExprGraph.Proofs.Session.Memo

/-!
# Independence in sessions

Whatever a session has been through, a derivative by a variable that does not lie below its node is
the literal zero, and so are the entries of products that no variable has a share in.  Nothing is
built for them on the way: a power with a constant exponent is differentiated without a logarithm.
-/

namespace ExprGraph

open ExprGraph.Graph

namespace Session

variable {s : Session} {graph : Nat} {g : Graph}

/-- What calls on a graph make of nodes and variables that do not lie below them. -/
structure RespectsIndependence (s : Session) (memo : Option Nat) (g : Graph) : Prop where
  derivative {node var : Handle} (hnode : g.Live node) (hvar : g.IsVariable var)
    (hnot : ¬ g.Reaches node var) :
    ∃ d w, DiffM.derivative node var ⟨g, s.memoFor memo⟩ = .ok d w ∧
      w.graph.node d = .ok (.lit 0.0)
  /-- One entry for every variable, zero for those that lie below no output. -/
  transposeTimes {outputs vars : List Handle} (houtputs : ∀ out ∈ outputs, g.Live out)
    (hvars : ∀ var ∈ vars, g.IsVariable var) :
    ∃ p w, DiffM.transposeTimes outputs vars ⟨g, s.memoFor memo⟩ = .ok p w ∧
      List.Forall₂ (fun var entry => (∀ out ∈ outputs, ¬ g.Reaches out var) →
        w.graph.node entry = .ok (.lit 0.0)) vars p.product
  /-- One entry for every output, zero for those that none of the variables lies below. -/
  jacobianTimes {outputs vars : List Handle} (houtputs : ∀ out ∈ outputs, g.Live out)
    (hvars : ∀ var ∈ vars, g.IsVariable var) :
    ∃ p w, DiffM.jacobianTimes outputs vars ⟨g, s.memoFor memo⟩ = .ok p w ∧
      List.Forall₂ (fun out entry => (∀ var ∈ vars, ¬ g.Reaches out var) →
        w.graph.node entry = .ok (.lit 0.0)) outputs p.product
  /-- The local partials in the memo after a call are from before, or one of the variables of the
  call lies below their operand. -/
  partials (call : Call) {node : Handle} {index : Nat} :
    let w := endState call.run ⟨g, s.memoFor memo⟩
    (node, index) ∈ w.memo.partials →
      (w.memo.generation = (s.memoFor memo).generation ∧
        (node, index) ∈ (s.memoFor memo).partials) ∨
      ∃ app a, w.graph.node node = .ok (.app app) ∧ app.args[index]? = some a ∧
        ∃ x ∈ call.wanted, w.graph.Reaches a x
  /-- A call that differentiates once makes no logarithm, unless one of its variables lies below
  the exponent of a power. -/
  logarithms {call : Call} {outputs : List Handle} (hcall : call.DifferentiatesOnce outputs)
    (houtputs : ∀ out ∈ outputs, g.Live out)
    (hexponents : ∀ {out node base exponent : Handle}, out ∈ outputs → g.Reaches out node →
      g.node node = .ok (.app ⟨.pow, [base, exponent]⟩) →
      ∀ x ∈ call.wanted, ¬ g.Reaches exponent x)
    {h : Handle} {args : List Handle} :
    (endState call.run ⟨g, s.memoFor memo⟩).graph.node h = .ok (.app ⟨.ln, args⟩) →
      g.node h = .ok (.app ⟨.ln, args⟩)

/-- Independence is respected, whatever has been called before and whether or not the graph folds.
A memo that has been in use is asked to be in the range of the counters. -/
theorem Reachable.respectsIndependence (hs : s.Reachable) (hg : s.graph? graph = some g)
    {memo : Option Nat} (hmemo : memo = none ∨ s.ReachableInRange) :
    s.RespectsIndependence memo g := by
  have hw : Workspace.Trusted ⟨g, s.memoFor memo⟩ := hs.trusted hg hmemo
  constructor
  case derivative =>
    intro node var hnode hvar hnot
    obtain ⟨d, w, hrun, -, hzero⟩ := DiffM.derivative_independent hw hnode hvar hnot
    exact ⟨d, w, hrun, hzero⟩
  case transposeTimes =>
    intro outputs vars houtputs hvars
    obtain ⟨p, w, hrun, -⟩ := DiffM.transposeTimes_succeeds hw.ready houtputs hvars
    have hentries := (DiffM.transposeTimes_prunes hw.ready.graph p w hrun).2
    refine ⟨p, w, hrun, hentries.imp fun var entry hzero hnot => hzero ?_⟩
    rintro ⟨out, hout, hreach⟩
    exact hnot out hout hreach
  case jacobianTimes =>
    intro outputs vars houtputs hvars
    obtain ⟨p, w, hrun, -⟩ := DiffM.jacobianTimes_succeeds hw.ready houtputs hvars
    have hentries := (DiffM.jacobianTimes_prunes hw.ready.graph p w hrun).2
    refine ⟨p, w, hrun, hentries.imp fun out entry hzero hnot => hzero ?_⟩
    rintro ⟨var, hvar, hreach⟩
    exact hnot var hvar hreach
  case partials =>
    intro call node index w hkey
    exact call.passes_of_mem_partials hw hkey
  case logarithms =>
    intro call outputs hcall houtputs hexponents h args hn
    refine hcall.ln_of_independent hw houtputs (fun hout hreach hpow => ?_) hn
    rintro ⟨x, hx, hbelow⟩
    exact hexponents hout hreach hpow x hx hbelow

/-- A session with a variable, the literal three, and the variable to that power. -/
def cube : Session :=
  ((oneVariable.step (.call 0 none (.literal 3.0))).2.step
    (.call 0 none (.operation .pow [⟨0, 0, 1⟩, ⟨1, 0, 1⟩]))).2

/-- Its graph before the power. -/
def threeGraph : Graph :=
  { oneVariableGraph with
    nodes := #[.var 1 "x", .lit 3.0]
    literals := Std.HashMap.insert {} (3.0 : Float).toBits ⟨1, 0, 1⟩ }

/-- Its graph. -/
def cubeGraph : Graph :=
  { threeGraph with
    nodes := #[.var 1 "x", .lit 3.0, .app ⟨.pow, [⟨0, 0, 1⟩, ⟨1, 0, 1⟩]⟩]
    operations := Std.HashMap.insert {} ⟨.pow, [⟨0, 0, 1⟩, ⟨1, 0, 1⟩]⟩ ⟨2, 0, 1⟩ }

theorem graph?_cube : cube.graph? 0 = some cubeGraph := by
  have hvariable : oneVariable.graph? 0 = some oneVariableGraph := rfl
  have hliteral : oneVariableGraph.literal 3.0 = (⟨1, 0, 1⟩, threeGraph) := by
    simp [oneVariableGraph, threeGraph, Graph.literal, Graph.push, Graph.handleAt, recycle]
  have hthree := graph?_step_literal hvariable none 3.0
  rw [hliteral] at hthree
  have hlive : ∀ a ∈ ([⟨0, 0, 1⟩, ⟨1, 0, 1⟩] : List Handle), threeGraph.Live a :=
    List.forall_mem_cons.mpr ⟨⟨_, rfl⟩, List.forall_mem_singleton.mpr ⟨_, rfl⟩⟩
  have hbuild : threeGraph.build .pow [⟨0, 0, 1⟩, ⟨1, 0, 1⟩] = (⟨2, 0, 1⟩, cubeGraph) := by
    have hzero : isZeroLiteral 3.0 = false := by decide
    have hone : isOneLiteral 3.0 = false := by decide
    simp [oneVariableGraph, threeGraph, cubeGraph, Graph.build, Graph.simplify, Graph.isZero,
      Graph.isOne, Graph.holds, Graph.node, Graph.placeOf, recycle, Node.isZero, Node.isOne,
      Graph.settle, Graph.share, Op.arrange, Op.isCommutative, Graph.push, Graph.handleAt, hzero,
      hone]
  exact graph?_step_operation hthree none rfl hlive hbuild

/-- The power is its only application. -/
theorem app_of_cubeGraph {h : Handle} {app : Application}
    (hn : cubeGraph.node h = .ok (.app app)) : app = ⟨.pow, [⟨0, 0, 1⟩, ⟨1, 0, 1⟩]⟩ := by
  have hmem : Node.app app ∈ cubeGraph.nodes := Array.mem_of_getElem? (eq_handleAt_of_node hn).2
  have hnodes : cubeGraph.nodes =
      #[.var 1 "x", .lit 3.0, .app ⟨.pow, [⟨0, 0, 1⟩, ⟨1, 0, 1⟩]⟩] := rfl
  rw [hnodes] at hmem
  simpa using hmem

theorem reachable_cube : cube.Reachable :=
  (Reachable.step ⟨_, rfl⟩ _).step _

theorem node_three_cubeGraph : cubeGraph.node ⟨1, 0, 1⟩ = .ok (.lit 3.0) := rfl

/-- The exponent is constant. -/
theorem not_reaches_three_cubeGraph : ¬ cubeGraph.Reaches ⟨1, 0, 1⟩ ⟨0, 0, 1⟩ := by
  intro hreach
  cases hreach with
  | step ha _ =>
      rw [argsOf_of_node node_three_cubeGraph] at ha
      cases ha

/-- The derivative of the exponent is zero, and that of the power is made without a logarithm. -/
theorem respectsIndependence_cube :
    cube.Reachable ∧ cube.graph? 0 = some cubeGraph ∧ ¬ cubeGraph.Reaches ⟨1, 0, 1⟩ ⟨0, 0, 1⟩ ∧
    (∃ d w, DiffM.derivative ⟨1, 0, 1⟩ ⟨0, 0, 1⟩ ⟨cubeGraph, cube.memoFor none⟩ = .ok d w ∧
      w.graph.node d = .ok (.lit 0.0)) ∧
    ∀ h args, (endState (Call.derivative ⟨2, 0, 1⟩ ⟨0, 0, 1⟩).run
      ⟨cubeGraph, cube.memoFor none⟩).graph.node h ≠ .ok (.app ⟨.ln, args⟩) := by
  have hrespects := reachable_cube.respectsIndependence graph?_cube (.inl rfl)
  refine ⟨reachable_cube, graph?_cube, not_reaches_three_cubeGraph,
    hrespects.derivative ⟨_, node_three_cubeGraph⟩ ⟨1, "x", rfl⟩ not_reaches_three_cubeGraph,
    fun h args hn => ?_⟩
  have hlive : ∀ out ∈ ([⟨2, 0, 1⟩] : List Handle), cubeGraph.Live out :=
    List.forall_mem_singleton.mpr ⟨_, rfl⟩
  have hbefore := hrespects.logarithms (.derivative ⟨2, 0, 1⟩ ⟨0, 0, 1⟩) hlive
    (fun _ _ hpow x hx hbelow => ?_) hn
  · cases app_of_cubeGraph hbefore
  · cases app_of_cubeGraph hpow
    rw [List.mem_singleton.mp hx] at hbelow
    exact not_reaches_three_cubeGraph hbelow

end Session

end ExprGraph
