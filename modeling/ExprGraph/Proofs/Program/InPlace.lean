import Mathlib
import ExprGraph.Proofs.Program.SinglePoint

/-!
# Evaluation into containers

Acceptance at compile time, the dimensions of a new container, and the fit of a given one are told
by three tables over the kinds of container.  They agree: a container of an accepted kind fits
exactly when it has the dimensions of a new one, and then it has an entry for every output, so the
write that stops at the shorter of the two lists leaves none out.
-/

namespace ExprGraph

namespace OutputKind

/-- The dimensions that the entries of outputs of a shape take in a container of a kind. -/
def dimensions : OutputKind → Shape → Shape
  | flat, shape => .vector shape.size
  | fixed _, shape => .vector shape.size
  | matrix, .vector n => .matrix n 1
  | matrix, .matrix rows cols => .matrix rows cols
  | grid _ _, shape => shape

theorem allocated_eq_dimensions {output : OutputKind} {shape : Shape}
    (haccepts : output.accepts shape = true) :
    output.allocated shape = output.dimensions shape := by
  cases output with
  | flat => rfl
  | matrix => cases shape <;> rfl
  | fixed n =>
      obtain rfl := beq_iff_eq.mp haccepts
      rfl
  | grid rows cols => exact (beq_iff_eq.mp haccepts).symm

/-- The shapes that containers of a kind can have. -/
def Admits : OutputKind → Shape → Prop
  | flat, shape => ∃ n, shape = .vector n
  | matrix, shape => ∃ rows cols, shape = .matrix rows cols
  | fixed n, shape => shape = .vector n
  | grid rows cols, shape => shape = .matrix rows cols

end OutputKind

namespace Container

variable {α : Type} {c : Container α} {kind : OutputKind} {shape : Shape}

/-- A container of a kind, whatever it contains. -/
structure IsOf (c : Container α) (kind : OutputKind) : Prop where
  valid : c.Valid
  admitted : kind.Admits c.shape

/-- A container has another number of entries, or as a matrix other rows or columns, than outputs of
a shape need.  A container of fixed extent never does when it is accepted. -/
def Misfits (c : Container α) : OutputKind → Shape → Prop
  | .flat, shape => c.values.length ≠ shape.size
  | .matrix, shape => c.shape.rowsAndCols ≠ shape.rowsAndCols
  | .fixed _, _ => False
  | .grid _ _, _ => False

theorem fits_eq_true_iff (haccepts : kind.accepts shape = true) :
    c.fits kind shape = true ↔ ¬ c.Misfits kind shape := by
  cases kind with
  | flat => simp [fits, Misfits]
  | matrix => simp [fits, Misfits]
  | fixed n => simpa [fits, Misfits, OutputKind.accepts] using haccepts
  | grid rows cols => simpa [fits, Misfits, OutputKind.accepts] using haccepts

/-- A container that fits has the dimensions of a new one. -/
theorem IsOf.shape_eq_allocated (hc : c.IsOf kind) (haccepts : kind.accepts shape = true)
    (hfits : ¬ c.Misfits kind shape) : c.shape = kind.allocated shape := by
  obtain ⟨hvalid, hadmitted⟩ := hc
  cases kind with
  | flat =>
      obtain ⟨n, hn⟩ := hadmitted
      have hlength : c.values.length = shape.size := not_not.mp hfits
      rw [Valid, hn, Shape.size] at hvalid
      rw [hn, OutputKind.allocated, ← hlength, hvalid]
  | matrix =>
      obtain ⟨rows, cols, hn⟩ := hadmitted
      have hextent : c.shape.rowsAndCols = shape.rowsAndCols := not_not.mp hfits
      rw [OutputKind.allocated, ← hextent, hn]
      rfl
  | fixed n => exact hadmitted
  | grid rows cols => exact hadmitted

end Container

namespace Evaluator

variable {α : Type} {ev : Evaluator} {interp : Interpretation α} {point values : List α}
  {target : Container α}

theorem checkInputs_of_ne (hpoint : point.length ≠ ev.program.inputCount) :
    ev.checkInputs point.length =
      .error (.shapeMismatch (.vector ev.program.inputCount) (.vector point.length)) := by
  rw [checkInputs, if_neg hpoint]

theorem evaluate_of_length_ne (hpoint : point.length ≠ ev.program.inputCount) :
    ev.evaluate interp point = .error (.refused
      (.shapeMismatch (.vector ev.program.inputCount) (.vector point.length))) := by
  rw [evaluate, checkInputs_of_ne hpoint]
  rfl

theorem overwrite_of_length_ne (hpoint : point.length ≠ ev.program.inputCount) :
    ev.overwrite interp point target = .error (.refused
      (.shapeMismatch (.vector ev.program.inputCount) (.vector point.length))) target := by
  rw [overwrite, checkInputs_of_ne hpoint]
  rfl

/-- The check of the container comes before the run. -/
theorem overwrite_of_not_fits (hpoint : point.length = ev.program.inputCount)
    (hfits : ¬ target.fits ev.output ev.program.shape = true) :
    ev.overwrite interp point target =
      .error (.refused (.shapeMismatch ev.program.shape target.shape)) target := by
  rw [overwrite, checkInputs, if_pos hpoint]
  change (if target.fits ev.output ev.program.shape = true then _ else _ : ContainerM α Unit)
    target = _
  rw [if_neg hfits]
  rfl

theorem overwrite_of_fits (hpoint : point.length = ev.program.inputCount)
    (hfits : target.fits ev.output ev.program.shape = true)
    (hrun : ev.program.run interp point.toArray = .ok values) :
    ev.overwrite interp point target = .ok () (target.write values) := by
  rw [overwrite, checkInputs, if_pos hpoint]
  change (if target.fits ev.output ev.program.shape = true then _ else _ : ContainerM α Unit)
    target = _
  rw [if_pos hfits, hrun]
  rfl

/-- A container that is refused stays as it is, and one that is not has the dimensions of a new one,
so every entry is written. -/
theorem overwrite_eq (haccepts : ev.output.accepts ev.program.shape = true)
    (hpoint : point.length = ev.program.inputCount)
    (hrun : ev.program.run interp point.toArray = .ok values)
    (hlength : values.length = ev.program.shape.size) (htarget : target.IsOf ev.output) :
    (target.Misfits ev.output ev.program.shape →
      ev.overwrite interp point target =
        .error (.refused (.shapeMismatch ev.program.shape target.shape)) target) ∧
    (¬ target.Misfits ev.output ev.program.shape →
      ev.overwrite interp point target = .ok () ⟨target.shape, values⟩ ∧
      target.shape = ev.output.allocated ev.program.shape) := by
  have hfits := Container.fits_eq_true_iff (c := target) haccepts
  refine ⟨fun hmisfits => ?_, fun hmisfits => ?_⟩
  · exact overwrite_of_not_fits hpoint fun hfit => hfits.mp hfit hmisfits
  · have hshape := htarget.shape_eq_allocated haccepts hmisfits
    have hentries : target.values.length = values.length := by
      rw [hlength, ← OutputKind.size_allocated haccepts, ← hshape]
      exact htarget.valid
    rw [overwrite_of_fits hpoint (hfits.mpr hmisfits) hrun, Container.write,
      Container.overwriteList_eq hentries]
    exact ⟨rfl, hshape⟩

end Evaluator

/-- What the two ways to evaluate do at a point, by whether the point and the container are right.
Here `dims` are the dimensions that the outputs take in the containers of the evaluator. -/
structure Evaluator.FillsContainers {α : Type} (ev : Evaluator) (interp : Interpretation α)
    (point : List α) (count : Nat) (shape dims : Shape) (outputs : List (Option α)) : Prop where
  /-- A wrong number of inputs is what is reported, whatever the container. -/
  wrongLength : point.length ≠ count →
    ev.evaluate interp point =
      .error (.refused (.shapeMismatch (.vector count) (.vector point.length))) ∧
    ∀ target, ev.overwrite interp point target =
      .error (.refused (.shapeMismatch (.vector count) (.vector point.length))) target
  rightLength : point.length = count →
    ∃ values, values.map some = outputs ∧ values.length = dims.size ∧
      ev.evaluate interp point = .ok ⟨dims, values⟩ ∧
      ∀ target, target.IsOf ev.output →
        (target.Misfits ev.output shape →
          ev.overwrite interp point target =
            .error (.refused (.shapeMismatch shape target.shape)) target) ∧
        (¬ target.Misfits ev.output shape →
          ev.overwrite interp point target = .ok () ⟨target.shape, values⟩ ∧
          target.shape = dims)

/-- The contract of containers.  An evaluation into a new container fails for a wrong number of
inputs only, and else the container has all entries of the outputs, in order.  An evaluation over
the entries of a given container fails for a wrong number of inputs and for a container that does
not fit, which stays as it is; else the container keeps its dimensions, and every entry has become
that of the new one. -/
theorem Session.Reachable.fillsContainers {α : Type} {s : Session} (hs : s.Reachable) {graph : Nat}
    {g : Graph} (hg : s.graph? graph = some g) {input : InputKind} {output : OutputKind}
    {nodes : Outputs} (hnodes : nodes.Valid) {inputs : List Handle} {reuse : Bool} {ev : Evaluator}
    (hev : g.evaluator input output nodes inputs reuse = .ok ev) (interp : Interpretation α)
    (point : List α) :
    ev.output = output ∧
    ev.FillsContainers interp point inputs.length nodes.shape (output.dimensions nodes.shape)
      (nodes.nodes.map (g.value? interp (inputValue? inputs point.toArray))) := by
  have hwf := hs.wellFormed.graph hg
  have hcompile := Graph.compile_of_evaluator hev
  have haccepts := hwf.accepts_of_evaluator hev
  have hcount : ev.program.inputCount = inputs.length := by
    obtain ⟨_, _, _, _, -, -, -, -, -, -, -, hcount⟩ := Graph.compile_eq_ok hcompile
    exact hcount
  have hshape := Graph.shape_of_compile hcompile
  have hdims : ev.output.allocated ev.program.shape = output.dimensions nodes.shape := by
    rw [OutputKind.allocated_eq_dimensions haccepts, Graph.output_of_evaluator hev, hshape]
  refine ⟨Graph.output_of_evaluator hev, ⟨fun hpoint => ?_, fun hpoint => ?_⟩⟩
  · rw [← hcount] at hpoint ⊢
    exact ⟨Evaluator.evaluate_of_length_ne hpoint,
      fun target => Evaluator.overwrite_of_length_ne hpoint⟩
  · rw [← hcount] at hpoint
    obtain ⟨values, hmapped, hrun⟩ := hwf.run_of_compile hcompile interp
      (show point.toArray.size = ev.program.inputCount from hpoint)
    have hmeant := map_eq_map_some_of_mapM hmapped
    have hlength : values.length = ev.program.shape.size := by
      have hsame := congrArg List.length hmeant
      rw [List.length_map, List.length_map] at hsame
      rw [← hsame, hnodes, hshape]
    have hsize := (OutputKind.size_allocated haccepts).trans hlength.symm
    refine ⟨values, hmeant.symm, by rw [← hdims, hsize],
      hdims ▸ Evaluator.evaluate_eq_ok hpoint hrun hsize, fun target htarget => ?_⟩
    rw [← hdims, ← hshape]
    exact Evaluator.overwrite_eq haccepts hpoint hrun hlength htarget

/-- The square at three, in a new matrix, over a matrix of one entry and over one of two. -/
theorem fillsContainers_square :
    let ev : Evaluator := ⟨⟨[.input 0 0, .binary .mul 0 0 0], [0], 1, 1, .vector 1⟩, .matrix⟩
    let nine : Float := (Interpretation.ofScalar Float).binary .mul 3.0 3.0
    Session.square.Reachable ∧ Session.square.graph? 0 = some Session.squareGraph ∧
    (Outputs.ofList [⟨1, 0, 1⟩]).Valid ∧
    Session.squareGraph.evaluator .open .matrix (.ofList [⟨1, 0, 1⟩]) [⟨0, 0, 1⟩] true = .ok ev ∧
    ev.evaluate (.ofScalar Float) [3.0] = .ok ⟨.matrix 1 1, [nine]⟩ ∧
    ev.overwrite (.ofScalar Float) [3.0] ⟨.matrix 1 1, [7.0]⟩ = .ok () ⟨.matrix 1 1, [nine]⟩ ∧
    ev.overwrite (.ofScalar Float) [3.0] ⟨.matrix 1 2, [7.0, 7.0]⟩ =
      .error (.refused (.shapeMismatch (.vector 1) (.matrix 1 2))) ⟨.matrix 1 2, [7.0, 7.0]⟩ ∧
    ev.overwrite (.ofScalar Float) [] ⟨.matrix 1 2, [7.0, 7.0]⟩ =
      .error (.refused (.shapeMismatch (.vector 1) (.vector 0))) ⟨.matrix 1 2, [7.0, 7.0]⟩ := by
  intro ev nine
  have hvalid : (Outputs.ofList [⟨1, 0, 1⟩]).Valid := Outputs.valid_ofList _
  have hev : Session.squareGraph.evaluator .open .matrix (.ofList [⟨1, 0, 1⟩]) [⟨0, 0, 1⟩] true =
      .ok ev := by
    rw [Graph.evaluator, compile_square]
    rfl
  have hfills := fun point => (Session.reachable_square.fillsContainers Session.graph?_square
    hvalid hev (.ofScalar Float) point).2
  obtain ⟨values, -, -, hevaluate, hover⟩ := (hfills [3.0]).rightLength rfl
  have hnine : ev.evaluate (.ofScalar Float) [3.0] = .ok ⟨.matrix 1 1, [nine]⟩ := rfl
  obtain rfl : values = [nine] :=
    congrArg Container.values (Except.ok.inj (hevaluate.symm.trans hnine))
  have hone : (⟨.matrix 1 1, [7.0]⟩ : Container Float).IsOf .matrix := ⟨rfl, 1, 1, rfl⟩
  have htwo : (⟨.matrix 1 2, [7.0, 7.0]⟩ : Container Float).IsOf .matrix := ⟨rfl, 1, 2, rfl⟩
  refine ⟨Session.reachable_square, Session.graph?_square, hvalid, hev, hnine, ?_, ?_, ?_⟩
  · exact ((hover _ hone).2 (not_not.mpr rfl)).1
  · exact (hover _ htwo).1 (show ((1, 2) : Nat × Nat) ≠ (1, 1) by decide)
  · exact ((hfills []).wrongLength (by decide)).2 _

end ExprGraph
