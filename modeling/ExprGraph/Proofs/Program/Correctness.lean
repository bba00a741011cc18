import Mathlib
import ExprGraph.Proofs.Program.Execution
import ExprGraph.Proofs.Session.WellFormed

/-!
# Correctness of compilation

A run of a compiled program gives the values of the nodes it was compiled from, whatever the scalars
mean and whether or not slots are used again.
-/

namespace ExprGraph

universe u

variable {α : Type u}

/-- The value of a variable is the entry of the input vector at its place in the input list. -/
def inputValue? (inputs : List Handle) (values : Array α) (h : Handle) : Option α :=
  (inputs.idxOf? h).bind fun position => values[position]?

namespace Graph

/-- The parts of a compilation. -/
theorem compile_eq_ok {g : Graph} {outputs : Outputs} {inputs : List Handle} {reuse : Bool}
    {p : Program} (hcompile : g.compile outputs inputs reuse = .ok p) :
    ∃ positions order lifetimes e, g.indexInputs 0 inputs {} = .ok positions ∧
      g.order outputs.nodes = .ok order ∧ g.lifetimes order outputs.nodes = .ok lifetimes ∧
      Emission.run g positions lifetimes 0 order { pool := { reuse } } = .ok e ∧
      e.slots outputs.nodes = .ok p.outputs ∧ p.instructions = e.emitted.reverse ∧
      p.slotCount = e.pool.count ∧ p.inputCount = inputs.length := by
  unfold compile at hcompile
  obtain ⟨positions, hpositions, hcompile⟩ := exists_of_bind_eq_ok hcompile
  obtain ⟨order, horder, hcompile⟩ := exists_of_bind_eq_ok hcompile
  obtain ⟨lifetimes, hlifetimes, hcompile⟩ := exists_of_bind_eq_ok hcompile
  obtain ⟨e, hrun, hcompile⟩ := exists_of_bind_eq_ok hcompile
  obtain ⟨slots, hslots, hpure⟩ := exists_of_bind_eq_ok hcompile
  obtain rfl := Except.ok.inj hpure
  exact ⟨positions, order, lifetimes, e, eq_ok_of_liftError hpositions, horder,
    eq_ok_of_liftError hlifetimes, hrun, eq_ok_of_liftFault hslots, rfl, rfl, rfl⟩

/-- A vector of the right length supplies every input. -/
theorem supplies_inputValue? {g : Graph} {inputs : List Handle}
    {positions : Std.HashMap Handle Nat} (hpositions : g.indexInputs 0 inputs {} = .ok positions)
    {values : Array α} (hvalues : values.size = inputs.length) :
    Emission.Supplies positions (inputValue? inputs values) values := by
  intro h position hposition
  rw [indexInputs_getElem? hpositions] at hposition
  simp only [Std.HashMap.getElem?_empty, Option.none_or, Nat.zero_add, Option.map_id'] at hposition
  have hlt : position < inputs.length := by
    obtain ⟨hlt, -⟩ := List.findIdx?_eq_some_iff_getElem.mp hposition
    exact hlt
  refine ⟨values[position], ?_, Array.getElem?_eq_getElem _⟩
  rw [inputValue?, hposition]
  exact Array.getElem?_eq_getElem (hvalues ▸ hlt)

/-- A run leaves the values of the outputs in their slots, whatever the slots held before. -/
theorem WellFormed.execute_of_compile {g : Graph} (hg : g.WellFormed) {outputs : Outputs}
    {inputs : List Handle} {reuse : Bool} {p : Program}
    (hcompile : g.compile outputs inputs reuse = .ok p) (interp : Interpretation α)
    {values : Array α} (hvalues : values.size = p.inputCount) {slots : Slots α}
    (hsize : slots.size = p.slotCount) :
    ∃ slots' results, p.execute interp values slots = .ok slots' ∧
      outputs.nodes.mapM (g.value? interp (inputValue? inputs values)) = some results ∧
      slots'.readAll p.outputs = .ok results := by
  obtain ⟨positions, order, lifetimes, e, hpositions, -, hlifetimes, hrun, hslots,
    hinstructions, hcount, hinputs⟩ := compile_eq_ok hcompile
  have hsupplies := supplies_inputValue? hpositions (hvalues.trans hinputs)
  -- no node has a slot yet, so nothing is asked of the slots at the start
  have hstart : Emission.Holds g outputs.nodes order interp (inputValue? inputs values)
      { pool := { reuse } } slots := by
    intro h slot _ hslot
    simp at hslot
  obtain ⟨is, final, hemitted, hsteps, hfinal⟩ :=
    hstart.run [] hg hsupplies hlifetimes
      (Emission.allocated_start g outputs.nodes order reuse) hrun
      (by rw [hsize, hcount])
  obtain ⟨results, hresults, hread⟩ :=
    Slots.exists_readAll (Emission.slots_eq_ok_iff.mp hslots) fun h hh slot hslot =>
      hfinal h slot (by simp [neededAfter, hh]) hslot
  refine ⟨final, results, ?_, hresults, hread⟩
  have hlist : p.instructions = is := by
    rw [hinstructions, hemitted, List.append_nil, List.reverse_reverse]
  rw [Program.execute, hlist, hsteps]

/-- The results of a run are the values of the outputs. -/
theorem WellFormed.run_of_compile {g : Graph} (hg : g.WellFormed) {outputs : Outputs}
    {inputs : List Handle} {reuse : Bool} {p : Program}
    (hcompile : g.compile outputs inputs reuse = .ok p) (interp : Interpretation α)
    {values : Array α} (hvalues : values.size = p.inputCount) :
    ∃ results, outputs.nodes.mapM (g.value? interp (inputValue? inputs values)) = some results ∧
      p.run interp values = .ok results := by
  obtain ⟨slots, results, hexecute, hresults, hread⟩ :=
    hg.execute_of_compile hcompile interp hvalues (Slots.size_empty p.slotCount)
  refine ⟨results, hresults, ?_⟩
  rw [Program.run, hexecute]
  exact hread

end Graph

/-- The contract of compilation.  A run accesses written slots and existing inputs only, entry `k`
of its results is the value of output `k`, and no other setting of slot reuse changes them. -/
theorem Session.Reachable.run_compile {s : Session} (hs : s.Reachable) {graph : Nat} {g : Graph}
    (hg : s.graph? graph = some g) {outputs : Outputs} {inputs : List Handle} {reuse : Bool}
    {p : Program} (hcompile : g.compile outputs inputs reuse = .ok p) (interp : Interpretation α)
    {values : Array α} (hvalues : values.size = p.inputCount) :
    ∃ results, p.run interp values = .ok results ∧
      results.map some = outputs.nodes.map (g.value? interp (inputValue? inputs values)) ∧
      ∀ reuse' p', g.compile outputs inputs reuse' = .ok p' →
        p'.run interp values = .ok results := by
  have hwf := hs.wellFormed.graph hg
  obtain ⟨results, hresults, hrun⟩ := hwf.run_of_compile hcompile interp hvalues
  refine ⟨results, hrun, (map_eq_map_some_of_mapM hresults).symm, ?_⟩
  intro reuse' p' hcompile'
  have hcount : values.size = p'.inputCount := by
    obtain ⟨_, _, _, _, -, -, -, -, -, -, -, hinputs⟩ := Graph.compile_eq_ok hcompile
    obtain ⟨_, _, _, _, -, -, -, -, -, -, -, hinputs'⟩ := Graph.compile_eq_ok hcompile'
    rw [hvalues, hinputs, hinputs']
  obtain ⟨results', hresults', hrun'⟩ := hwf.run_of_compile hcompile' interp hcount
  obtain rfl := Option.some.inj (hresults.symm.trans hresults')
  exact hrun'

/-- The square overwrites its operand: one slot suffices. -/
theorem compile_square :
    Session.squareGraph.compile (.ofList [⟨1, 0, 1⟩]) [⟨0, 0, 1⟩] true =
      .ok ⟨[.input 0 0, .binary .mul 0 0 0], [0], 1, 1, .vector 1⟩ := by
  simp [Graph.compile, Graph.indexInputs, Session.squareGraph, Session.oneVariableGraph,
    Graph.node, Graph.placeOf, recycle, bind, Except.bind, pure, Except.pure, Node.isVariable,
    liftError, liftFault, Graph.order, Graph.validate, Outputs.ofList, Graph.orderSkipping,
    Graph.walkSteps, Graph.size, Graph.walkFrom, Graph.operands, Node.args, Graph.lifetimes,
    Graph.noteUses, Emission.run, Emission.step, Emission.slots, Emission.dying, SlotPool.take,
    SlotPool.releaseAll, SlotPool.release, Emission.emit, Instruction.ofApplication?,
    Instruction.dst, Std.HashMap.getElem?_insert, List.eraseDups_cons]

theorem run_compile_square :
    ∃ results, Program.run ⟨[.input 0 0, .binary .mul 0 0 0], [0], 1, 1, .vector 1⟩
        (.ofScalar Float) #[3.0] = .ok results ∧
      results.map some = [Session.squareGraph.value? (.ofScalar Float)
        (inputValue? [⟨0, 0, 1⟩] #[3.0]) ⟨1, 0, 1⟩] ∧
      ∀ reuse' p',
        Session.squareGraph.compile (.ofList [⟨1, 0, 1⟩]) [⟨0, 0, 1⟩] reuse' = .ok p' →
          p'.run (.ofScalar Float) #[3.0] = .ok results :=
  Session.reachable_square.run_compile Session.graph?_square compile_square (.ofScalar Float) rfl

end ExprGraph
