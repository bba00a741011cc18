import Mathlib
import ExprGraph.Proofs.Program.Acceptance
import ExprGraph.Proofs.Scalar.Negation

/-!
# Batches and single evaluations

What a batch gives at a point is what an evaluation at the point alone gives, bit for bit, wherever
the point stands.  There is one exception: in a group a positive zero is negated to itself.  An
output is affected by it only if a negation below it meets a positive zero.
-/

namespace ExprGraph

open BatchM

namespace Interpretation

variable {α : Type} {interp : Interpretation α}

/-- Negation alone means something else in a group. -/
theorem applied?_negatingFromZero {op : Op} (hop : op ≠ .neg) (values : List α) :
    interp.negatingFromZero.applied? op values = interp.applied? op values := by
  unfold applied?
  split
  · rw [negatingFromZero_unary interp hop]
  · rw [negatingFromZero_binary]
  · rw [negatingFromZero_choose]
  · rfl

end Interpretation

namespace Graph

variable {α : Type} {g : Graph}

/-- If subtraction from zero negates all that is negated below a node, the node has the same value
in a group. -/
theorem WellFormed.value?_negatingFromZero (hg : g.WellFormed) {interp : Interpretation α}
    {assign : Handle → Option α} {h : Handle}
    (hneg : ∀ m a v, g.Reaches h m → g.node m = .ok (.app ⟨.neg, [a]⟩) →
      g.value? interp assign a = some v →
        interp.binary .sub (interp.literal 0.0) v = interp.unary .neg v) :
    g.value? interp.negatingFromZero assign h = g.value? interp assign h := by
  by_cases hlive : g.Live h
  swap
  · cases hn : g.node h with
    | ok n => exact absurd ⟨n, hn⟩ hlive
    | error e => rw [value?_of_error hn, value?_of_error hn]
  induction h, hlive using hg.induction with
  | step h n hn ih =>
      cases n with
      | var id name => rw [value?_of_var hn, value?_of_var hn]
      | lit v =>
          rw [value?_of_lit hn, value?_of_lit hn, Interpretation.negatingFromZero_literal]
      | app app =>
          have hargs : ∀ a ∈ app.args,
              g.value? interp.negatingFromZero assign a = g.value? interp assign a := by
            intro a ha
            refine ih a (hg.live hn ha) ha fun m b v hreach => hneg m b v (.step ?_ hreach)
            rwa [argsOf_of_node hn]
          rw [hg.value?_of_app hn, hg.value?_of_app hn, mapM_congr hargs]
          obtain ⟨op, args⟩ := app
          by_cases hop : op = .neg
          · subst hop
            obtain ⟨a, rfl⟩ := List.length_eq_one_iff.mp (hg.arity hn)
            cases ha : g.value? interp assign a with
            | none => simp [ha]
            | some v =>
                have hsame := hneg h a v (.refl h) hn ha
                simpa [ha, Interpretation.applied?] using hsame
          · exact congrArg _ (funext fun values =>
              Interpretation.applied?_negatingFromZero hop values)

/-- No negation below a node meets a positive zero. -/
def NegatesNoZero (g : Graph) (assign : Handle → Option Float) (h : Handle) : Prop :=
  ∀ m a, g.Reaches h m → g.node m = .ok (.app ⟨.neg, [a]⟩) →
    g.value? (.ofScalar Float) assign a ≠ some 0.0

theorem NegatesNoZero.value?_eq (hg : g.WellFormed) {assign : Handle → Option Float} {h : Handle}
    (hneg : g.NegatesNoZero assign h) :
    g.value? (Interpretation.ofScalar Float).negatingFromZero assign h =
      g.value? (.ofScalar Float) assign h := by
  refine hg.value?_negatingFromZero fun m a v hreach hm hv => zero_sub_eq_neg_iff.mpr ?_
  rintro rfl
  exact hneg m a hreach hm hv

end Graph

/-- A batch has a point at every place. -/
theorem Program.Fits.exists_point {α : Type} {p : Program} {columns outputs : List (Column α)}
    (hfits : p.Fits columns outputs) {place : Nat} (hplace : place < pointCount columns outputs) :
    ∃ point : List α, entriesAt columns place = point.map some ∧ point.length = p.inputCount := by
  have hcolumns : ∀ column ∈ columns, ∃ v, column.at? place = .ok v ∧ some v = column[place]? :=
    fun column hcolumn => Column.exists_at? (hplace.trans_le (hfits.points column hcolumn).ge)
  obtain ⟨point, -, hat⟩ := exists_mapM_eq_ok hcolumns
  exact ⟨point, (map_eq_map_of_forall₂ hat fun _ _ hv => hv).symm,
    hat.length_eq.symm.trans hfits.input_count⟩

/-- What a batch leaves at a point are the values of the outputs there. -/
theorem Graph.WellFormed.entriesAt_of_filled {α : Type} {g : Graph} (hg : g.WellFormed)
    {nodes : Outputs} {inputs : List Handle} {reuse : Bool} {p : Program}
    (hcompile : g.compile nodes inputs reuse = .ok p) {meaning : Nat → Interpretation α}
    {columns before after : List (Column α)} {done : Nat}
    (hfilled : p.Filled meaning columns done before after) {values : List α}
    (hvalues : values.length = p.inputCount) {place : Nat} (hplace : place < done)
    (hat : entriesAt columns place = values.map some) :
    entriesAt after place =
      nodes.nodes.map (g.value? (meaning place) (inputValue? inputs values.toArray)) := by
  obtain ⟨found, results, hfound, hrun, hentries⟩ := hfilled.run hplace
  obtain rfl := List.map_injective_iff.mpr (Option.some_injective α) (hfound.trans hat)
  obtain ⟨results', hmapped, hrun'⟩ := hg.run_of_compile hcompile (meaning place)
    (show found.toArray.size = p.inputCount from hvalues)
  obtain rfl := Except.ok.inj (hrun.symm.trans hrun')
  rw [hentries, map_eq_map_some_of_mapM hmapped]

/-- The containers of an evaluator hold its outputs. -/
theorem Graph.WellFormed.accepts_of_evaluator {g : Graph} (hg : g.WellFormed) {input : InputKind}
    {output : OutputKind} {nodes : Outputs} {inputs : List Handle} {reuse : Bool} {ev : Evaluator}
    (hev : g.evaluator input output nodes inputs reuse = .ok ev) :
    ev.output.accepts ev.program.shape = true := by
  rw [output_of_evaluator hev, shape_of_compile (compile_of_evaluator hev)]
  exact (hg.compilable_of_evaluator hev).containers.accepts

theorem OutputKind.size_allocated {output : OutputKind} {shape : Shape}
    (haccepts : output.accepts shape = true) : (output.allocated shape).size = shape.size := by
  cases output with
  | flat => rfl
  | matrix => exact shape.rowsAndCols_size
  | fixed n => exact (beq_iff_eq.mp haccepts).symm
  | grid rows cols =>
      obtain rfl := beq_iff_eq.mp haccepts
      rfl

namespace Evaluator

variable {α : Type} {ev : Evaluator} {interp : Interpretation α} {point values : List α}

/-- A new container holds just the results of the run. -/
theorem evaluate_eq_ok (hpoint : point.length = ev.program.inputCount)
    (hrun : ev.program.run interp point.toArray = .ok values)
    (hsize : (ev.output.allocated ev.program.shape).size = values.length) :
    ev.evaluate interp point = .ok ⟨ev.output.allocated ev.program.shape, values⟩ := by
  have hwritten : Container.overwriteList
      (List.replicate (ev.output.allocated ev.program.shape).size (interp.literal 0.0)) values =
        values :=
    Container.overwriteList_eq (by rw [List.length_replicate, hsize])
  rw [evaluate, checkInputs, if_pos hpoint, hrun]
  simp [liftError, liftFault, bind, Except.bind, pure, Except.pure, Container.filled,
    Container.write, hwritten]

theorem evaluateBatch_eq_ok {columns outputs after : List (Column Float)}
    (hrun : ev.program.runBatch (.ofScalar Float) columns outputs = .ok () after) :
    ev.evaluateBatch columns outputs = .ok after := by
  rw [evaluateBatch, columnsFrom, hrun]

end Evaluator

/-! ### A negation -/

namespace Session

/-- A variable and its negation. -/
def negation : Session :=
  (oneVariable.step (.call 0 none (.operation .neg [⟨0, 0, 1⟩]))).2

/-- The graph with a variable and its negation. -/
def negationGraph : Graph :=
  { oneVariableGraph with
    nodes := #[.var 1 "x", .app ⟨.neg, [⟨0, 0, 1⟩]⟩]
    operations := Std.HashMap.insert {} ⟨.neg, [⟨0, 0, 1⟩]⟩ ⟨1, 0, 1⟩ }

theorem reachable_negation : negation.Reachable :=
  Reachable.step ⟨_, rfl⟩ _

theorem graph?_negation : negation.graph? 0 = some negationGraph := by
  have hbefore : oneVariable.graph? 0 = some oneVariableGraph := rfl
  have hlive : ∀ a ∈ ([⟨0, 0, 1⟩] : List Handle), oneVariableGraph.Live a :=
    List.forall_mem_singleton.mpr ⟨.var 1 "x", rfl⟩
  have hbuild : oneVariableGraph.build .neg [⟨0, 0, 1⟩] = (⟨1, 0, 1⟩, negationGraph) := by
    simp [oneVariableGraph, negationGraph, Graph.build, Graph.simplify, Graph.node, Graph.placeOf,
      recycle, Graph.settle, Graph.share, Op.arrange, Graph.push, Graph.handleAt]
  exact graph?_step_operation hbefore none rfl hlive hbuild

end Session

/-- The evaluator of the negation. -/
def negationEvaluator : Evaluator :=
  ⟨⟨[.input 0 0, .unary .neg 0 0], [0], 1, 1, .vector 1⟩, .flat⟩

theorem evaluator_negation :
    Session.negationGraph.evaluator .open .flat (.ofList [⟨1, 0, 1⟩]) [⟨0, 0, 1⟩] true =
      .ok negationEvaluator := by
  have hcompile : Session.negationGraph.compile (.ofList [⟨1, 0, 1⟩]) [⟨0, 0, 1⟩] true =
      .ok negationEvaluator.program := by
    simp [Graph.compile, Graph.indexInputs, Session.negationGraph, Session.oneVariableGraph,
      Graph.node, Graph.placeOf, recycle, bind, Except.bind, pure, Except.pure, Node.isVariable,
      liftError, liftFault, Graph.order, Graph.validate, Outputs.ofList, Graph.orderSkipping,
      Graph.walkSteps, Graph.size, Graph.walkFrom, Graph.operands, Node.args, Graph.lifetimes,
      Graph.noteUses, Emission.run, Emission.step, Emission.slots, Emission.dying, SlotPool.take,
      SlotPool.releaseAll, SlotPool.release, Emission.emit, Instruction.ofApplication?,
      Instruction.dst, Std.HashMap.getElem?_insert, List.eraseDups_cons, negationEvaluator]
  rw [Graph.evaluator, hcompile]
  rfl

/-- The only negation is that of the variable. -/
theorem negatesNoZero_negation {v : Float} (hv : v ≠ 0.0) :
    Session.negationGraph.NegatesNoZero (inputValue? [⟨0, 0, 1⟩] #[v]) ⟨1, 0, 1⟩ := by
  have hvar : Session.negationGraph.node ⟨0, 0, 1⟩ = .ok (.var 1 "x") := rfl
  have hnode : Session.negationGraph.node ⟨1, 0, 1⟩ = .ok (.app ⟨.neg, [⟨0, 0, 1⟩]⟩) := rfl
  intro m a hreach hm
  cases hreach with
  | refl =>
      cases hm
      rw [Graph.value?_of_var hvar]
      exact fun hsame => hv (Option.some.inj hsame)
  | step harg hbelow =>
      rw [Graph.argsOf_of_node hnode] at harg
      obtain rfl := List.mem_singleton.mp harg
      cases hbelow with
      | refl => cases hm
      | step harg' _ =>
          rw [Graph.argsOf_of_node hvar] at harg'
          cases harg'

/-- The contract of batches against single evaluations.  At every point of a batch an evaluation of
the point alone succeeds, and the batch has its results, whatever the other points are and wherever
the point stands; so points that are moved take their results along.  In a group this is asked of
the outputs below which no positive zero is negated; elsewhere it holds of all. -/
theorem Session.Reachable.evaluateBatch_eq_evaluate {s : Session} (hs : s.Reachable) {graph : Nat}
    {g : Graph} (hg : s.graph? graph = some g) {input : InputKind} {output : OutputKind}
    {nodes : Outputs} (hnodes : nodes.Valid) {inputs : List Handle} {reuse : Bool} {ev : Evaluator}
    (hev : g.evaluator input output nodes inputs reuse = .ok ev)
    {columns outputs : List (Column Float)} (hfits : ev.program.Fits columns outputs) :
    ∃ after, ev.evaluateBatch columns outputs = .ok after ∧
      ∀ p < Program.pointCount columns outputs, ∃ point c,
        entriesAt columns p = point.map some ∧ ev.evaluate (.ofScalar Float) point = .ok c ∧
          c.values.length = nodes.nodes.length ∧
          ∀ (k : Nat) (out : Handle), nodes.nodes[k]? = some out →
            (InGroup (Program.pointCount columns outputs) p →
              g.NegatesNoZero (inputValue? inputs point.toArray) out) →
            (entriesAt after p)[k]? = (c.values.map some)[k]? := by
  have hwf := hs.wellFormed.graph hg
  have hcompile := Graph.compile_of_evaluator hev
  obtain ⟨after, hbatch, hfilled⟩ :=
    (hwf.natural_of_compile hcompile).runBatch_fills hfits (.ofScalar Float)
  refine ⟨after, Evaluator.evaluateBatch_eq_ok hbatch, fun p hp => ?_⟩
  obtain ⟨point, hat, hpoint⟩ := hfits.exists_point hp
  obtain ⟨values, hmapped, hrun⟩ := hwf.run_of_compile hcompile (.ofScalar Float)
    (show point.toArray.size = ev.program.inputCount from hpoint)
  have hmeant := map_eq_map_some_of_mapM hmapped
  have hlength : values.length = nodes.nodes.length := by
    simpa using (congrArg List.length hmeant).symm
  have hsize : (ev.output.allocated ev.program.shape).size = values.length := by
    rw [OutputKind.size_allocated (hwf.accepts_of_evaluator hev),
      Graph.shape_of_compile hcompile, ← hnodes, hlength]
  refine ⟨point, _, hat, Evaluator.evaluate_eq_ok hpoint hrun hsize, hlength,
    fun k out hout hneg => ?_⟩
  rw [hwf.entriesAt_of_filled hcompile hfilled hpoint hp hat, ← hmeant, List.getElem?_map,
    List.getElem?_map, hout]
  refine congrArg some ?_
  rw [Interpretation.atPoint]
  split_ifs with hgroup
  · exact (hneg hgroup).value?_eq hwf
  · rfl

/-- At zeros, a group and single evaluations differ on the negation. -/
theorem evaluateBatch_ne_evaluate_negation :
    Session.negation.Reachable ∧ Session.negation.graph? 0 = some Session.negationGraph ∧
    Session.negationGraph.evaluator .open .flat (.ofList [⟨1, 0, 1⟩]) [⟨0, 0, 1⟩] true =
      .ok negationEvaluator ∧
    negationEvaluator.program.Fits [#[0.0, 0.0, 0.0, 0.0]] [#[7.0, 7.0, 7.0, 7.0]] ∧
    ∃ after c, negationEvaluator.evaluateBatch [#[0.0, 0.0, 0.0, 0.0]] [#[7.0, 7.0, 7.0, 7.0]] =
        .ok after ∧
      negationEvaluator.evaluate (.ofScalar Float) [0.0] = .ok c ∧
      entriesAt after 0 = [some 0.0] ∧ c.values = [-0.0] ∧
      entriesAt after 0 ≠ c.values.map some := by
  have hfits : negationEvaluator.program.Fits [#[0.0, 0.0, 0.0, 0.0]] [#[7.0, 7.0, 7.0, 7.0]] :=
    ⟨rfl, rfl, by simp [Program.pointCount], by simp [Program.pointCount]⟩
  have hnatural := (Session.reachable_negation.wellFormed.graph
    Session.graph?_negation).natural_of_compile (Graph.compile_of_evaluator evaluator_negation)
  obtain ⟨after, hbatch, hfilled⟩ := hnatural.runBatch_fills hfits (.ofScalar Float)
  have hruns : negationEvaluator.program.RunsAt
      ((Interpretation.ofScalar Float).atPoint 4 0) [#[0.0, 0.0, 0.0, 0.0]] 0 [some 0.0] :=
    ⟨[0.0], [0.0], rfl, rfl, rfl⟩
  have hzero : entriesAt after 0 = [some 0.0] := (hfilled.run (by decide)).unique hruns
  refine ⟨Session.reachable_negation, Session.graph?_negation, evaluator_negation, hfits, after,
    ⟨.vector 1, [-0.0]⟩, Evaluator.evaluateBatch_eq_ok hbatch, rfl, hzero, rfl, ?_⟩
  rw [hzero]
  decide

/-- In a group a negation is the same as on its own at three, and after the group at zero too. -/
theorem evaluateBatch_eq_evaluate_negation :
    Session.negation.Reachable ∧ Session.negation.graph? 0 = some Session.negationGraph ∧
    (Outputs.ofList [⟨1, 0, 1⟩]).Valid ∧
    Session.negationGraph.evaluator .open .flat (.ofList [⟨1, 0, 1⟩]) [⟨0, 0, 1⟩] true =
      .ok negationEvaluator ∧
    negationEvaluator.program.Fits [#[3.0, 0.0, 1.0, 2.0, 0.0]] [#[7.0, 7.0, 7.0, 7.0, 7.0]] ∧
    ∃ after three zero, negationEvaluator.evaluateBatch [#[3.0, 0.0, 1.0, 2.0, 0.0]]
        [#[7.0, 7.0, 7.0, 7.0, 7.0]] = .ok after ∧
      negationEvaluator.evaluate (.ofScalar Float) [3.0] = .ok three ∧
      negationEvaluator.evaluate (.ofScalar Float) [0.0] = .ok zero ∧
      (entriesAt after 0)[0]? = (three.values.map some)[0]? ∧
      (entriesAt after 4)[0]? = (zero.values.map some)[0]? := by
  have hvalid : (Outputs.ofList [⟨1, 0, 1⟩]).Valid := Outputs.valid_ofList _
  have hfits : negationEvaluator.program.Fits [#[3.0, 0.0, 1.0, 2.0, 0.0]]
      [#[7.0, 7.0, 7.0, 7.0, 7.0]] :=
    ⟨rfl, rfl, by simp [Program.pointCount], by simp [Program.pointCount]⟩
  obtain ⟨after, hbatch, hpoints⟩ := Session.reachable_negation.evaluateBatch_eq_evaluate
    Session.graph?_negation hvalid evaluator_negation hfits
  obtain ⟨_, three, hat, hthree, -, hgroup⟩ := hpoints 0 (by decide)
  obtain rfl := List.map_injective_iff.mpr (Option.some_injective Float)
    (show [3.0].map some = _ from hat)
  obtain ⟨_, zero, hat', hzero, -, hsingle⟩ := hpoints 4 (by decide)
  obtain rfl := List.map_injective_iff.mpr (Option.some_injective Float)
    (show [0.0].map some = _ from hat')
  refine ⟨Session.reachable_negation, Session.graph?_negation, hvalid, evaluator_negation, hfits,
    after, three, zero, hbatch, hthree, hzero, ?_, ?_⟩
  · exact hgroup 0 _ rfl fun _ => negatesNoZero_negation (by decide)
  · exact hsingle 0 _ rfl fun hin => absurd hin (by decide)

end ExprGraph
