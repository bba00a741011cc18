import Mathlib
import ExprGraph.Program.Batch
import ExprGraph.Proofs.Program.Correctness

/-!
# Naturality

The outputs of a compiled program are expressions in its inputs.  So they do not depend on what the
slots held before the run, and a map between interpretations carries the outputs of one run to those
of another.  The lanes of a group are such maps: each of them sees a run at its own point.
-/

namespace ExprGraph

/-- The outputs of a program depend on its inputs only, and in the same way under all
interpretations. -/
structure Program.Natural (p : Program) : Prop where
  execute {α : Type} (interp : Interpretation α) {inputs : Array α} {slots : Slots α} :
    inputs.size = p.inputCount → slots.size = p.slotCount →
    ∃ slots' values, p.execute interp inputs slots = .ok slots' ∧ slots'.size = p.slotCount ∧
      slots'.readAll p.outputs = .ok values ∧ values.length = p.outputs.length ∧
      p.run interp inputs = .ok values
  map {α β : Type} {φ : α → β} {source : Interpretation α} {target : Interpretation β}
    (hφ : Interpretation.Morphism φ source target) {inputs : Array α} {values : List α} :
    inputs.size = p.inputCount → p.run source inputs = .ok values →
      p.run target (inputs.map φ) = .ok (values.map φ)

namespace Slots

theorem length_readAll {α : Type} {slots : Slots α} {sources : List Nat} {vs : List α}
    (hread : slots.readAll sources = .ok vs) : vs.length = sources.length := by
  induction sources generalizing vs with
  | nil =>
      cases hread
      rfl
  | cons slot rest ih =>
      obtain ⟨v, others, -, hothers, rfl⟩ := readAll_cons_eq_ok hread
      rw [List.length_cons, List.length_cons, ih hothers]

end Slots

namespace Program

variable {α : Type}

/-- Instructions write into the slots there are. -/
theorem size_of_steps {interp : Interpretation α} {inputs : Array α} {is : List Instruction}
    {slots slots' : Slots α} (hsteps : steps interp inputs is slots = .ok slots') :
    slots'.size = slots.size := by
  induction is generalizing slots with
  | nil =>
      cases hsteps
      rfl
  | cons i rest ih =>
      rw [steps] at hsteps
      obtain ⟨written, hstep, hrest⟩ := exists_of_bind_eq_ok hsteps
      rw [Instruction.step] at hstep
      obtain ⟨v, -, hwrite⟩ := exists_of_bind_eq_ok hstep
      rw [ih hrest]
      unfold Slots.write at hwrite
      split at hwrite
      · cases hwrite
        exact Array.size_setIfInBounds
      · cases hwrite

end Program

theorem inputValue?_map {α β : Type} (φ : α → β) (inputs : List Handle) (values : Array α)
    (h : Handle) : inputValue? inputs (values.map φ) h = (inputValue? inputs values h).map φ := by
  rw [inputValue?, inputValue?]
  cases inputs.idxOf? h with
  | none => rfl
  | some position => exact Array.getElem?_map

/-- Compiled programs are natural. -/
theorem Graph.WellFormed.natural_of_compile {g : Graph} (hg : g.WellFormed) {outputs : Outputs}
    {inputs : List Handle} {reuse : Bool} {p : Program}
    (hcompile : g.compile outputs inputs reuse = .ok p) : p.Natural where
  execute {α} interp {values slots} hvalues hsize := by
    obtain ⟨slots', results, hexecute, hresults, hread⟩ :=
      hg.execute_of_compile hcompile interp hvalues hsize
    obtain ⟨results', hresults', hrun⟩ := hg.run_of_compile hcompile interp hvalues
    obtain rfl := Option.some.inj (hresults.symm.trans hresults')
    exact ⟨slots', results, hexecute, (Program.size_of_steps hexecute).trans hsize, hread,
      Slots.length_readAll hread, hrun⟩
  map {α β φ source target} hφ {values results} hvalues hrun := by
    obtain ⟨results', hresults, hrun'⟩ := hg.run_of_compile hcompile source hvalues
    obtain rfl := Except.ok.inj (hrun'.symm.trans hrun)
    have hsize : (values.map φ).size = p.inputCount := by rw [Array.size_map, hvalues]
    obtain ⟨mapped, hmapped, hrun''⟩ := hg.run_of_compile hcompile target hsize
    have hvalue : ∀ h ∈ outputs.nodes, g.value? target (inputValue? inputs (values.map φ)) h =
        (g.value? source (inputValue? inputs values) h).map φ := by
      intro h _
      rw [funext fun h => inputValue?_map φ inputs values h]
      exact hg.value?_map hφ _ h
    rw [mapM_map hvalue, hresults] at hmapped
    obtain rfl := Option.some.inj hmapped
    exact hrun''

namespace Interpretation

/-- Each lane of a group is computed on its own. -/
theorem lanes_morphism {α : Type} (interp : Interpretation α) {lane : Nat} (hlane : lane < 4) :
    Morphism (fun v : Lanes α => v[lane]) interp.lanes interp where
  literal v := by simp [lanes]
  unary _ a := by simp [lanes]
  binary _ a b := by simp [lanes]
  choose c a b := by simp [lanes]

end Interpretation

end ExprGraph
