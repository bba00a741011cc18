import Mathlib
import ExprGraph.Program.Run
import ExprGraph.Proofs.Graph.Evaluation
import ExprGraph.Proofs.Program.Allocation

/-!
# Execution

Running the instructions of a program keeps every value that is still needed in the slot of its
node.  So a run reads written slots only, and its outputs are the values of the nodes the program
was compiled from.
-/

namespace ExprGraph

universe u

variable {α : Type u}

namespace Slots

@[simp] theorem size_empty (count : Nat) : (empty count : Slots α).size = count :=
  Array.size_replicate

theorem write_eq_ok {slots : Slots α} {slot : Nat} (v : α) (hslot : slot < slots.size) :
    ∃ written, slots.write slot v = .ok written ∧ written.size = slots.size := by
  refine ⟨slots.setIfInBounds slot (some v), ?_, Array.size_setIfInBounds⟩
  rw [write, if_pos hslot]

theorem readAll_cons_eq_ok {slots : Slots α} {slot : Nat} {rest : List Nat} {vs : List α}
    (hread : slots.readAll (slot :: rest) = .ok vs) :
    ∃ v others, slots.read slot = .ok v ∧ slots.readAll rest = .ok others ∧ vs = v :: others := by
  rw [readAll] at hread
  obtain ⟨v, hv, hread⟩ := exists_of_bind_eq_ok hread
  obtain ⟨others, hothers, hpure⟩ := exists_of_bind_eq_ok hread
  exact ⟨v, others, hv, hothers, (Except.ok.inj hpure).symm⟩

/-- Slots that hold the values of some nodes are read without a fault. -/
theorem exists_readAll {β : Type} {f : β → Option α} {R : β → Nat → Prop} {hs : List β}
    {sources : List Nat} {slots : Slots α} (hsources : List.Forall₂ R hs sources)
    (hread : ∀ h ∈ hs, ∀ slot, R h slot → ∃ v, f h = some v ∧ slots.read slot = .ok v) :
    ∃ vs, hs.mapM f = some vs ∧ slots.readAll sources = .ok vs := by
  induction hsources with
  | nil => exact ⟨[], rfl, rfl⟩
  | @cons h slot hs sources hslot hrest ih =>
      obtain ⟨v, hv, hfirst⟩ := hread h List.mem_cons_self slot hslot
      obtain ⟨vs, hvs, hothers⟩ := ih fun a ha => hread a (List.mem_cons_of_mem h ha)
      refine ⟨v :: vs, ?_, ?_⟩
      · rw [List.mapM_cons, hv, hvs]
        rfl
      · rw [readAll, hfirst, hothers]
        rfl

end Slots

/-- An instruction applies its operator to what its sources hold. -/
theorem Instruction.value_of_ofApplication? {op : Op} {dst : Nat} {sources : List Nat}
    {i : Instruction} (hi : ofApplication? op dst sources = some i) (interp : Interpretation α)
    (inputs : Array α) {slots : Slots α} {vs : List α} (hread : slots.readAll sources = .ok vs) :
    ∃ v, interp.applied? op vs = some v ∧ i.value interp inputs slots = .ok v := by
  unfold ofApplication? at hi
  split at hi
  · next a =>
    obtain ⟨x, _, hx, hnil, rfl⟩ := Slots.readAll_cons_eq_ok hread
    cases hnil
    cases hi
    exact ⟨_, rfl, by simp [value, hx, bind, Except.bind, pure, Except.pure]⟩
  · next a b =>
    obtain ⟨x, _, hx, hrest, rfl⟩ := Slots.readAll_cons_eq_ok hread
    obtain ⟨y, _, hy, hnil, rfl⟩ := Slots.readAll_cons_eq_ok hrest
    cases hnil
    cases hi
    exact ⟨_, rfl, by simp [value, hx, hy, bind, Except.bind, pure, Except.pure]⟩
  · next c a b =>
    obtain ⟨z, _, hz, hbranches, rfl⟩ := Slots.readAll_cons_eq_ok hread
    obtain ⟨x, _, hx, hrest, rfl⟩ := Slots.readAll_cons_eq_ok hbranches
    obtain ⟨y, _, hy, hnil, rfl⟩ := Slots.readAll_cons_eq_ok hrest
    cases hnil
    split_ifs at hi with hop
    cases hi
    exact ⟨_, by rw [Interpretation.applied?, if_pos hop],
      by simp [value, hz, hx, hy, bind, Except.bind, pure, Except.pure]⟩
  · cases hi

namespace Emission

variable {g : Graph} {outputs rest : List Handle} {interp : Interpretation α}
  {assign : Handle → Option α} {inputs : Array α} {positions : Std.HashMap Handle Nat}
  {e : Emission} {slots : Slots α} {node : Handle}

/-- Every value that is needed stands in the slot of its node. -/
def Holds (g : Graph) (outputs rest : List Handle) (interp : Interpretation α)
    (assign : Handle → Option α) (e : Emission) (slots : Slots α) : Prop :=
  ∀ h slot, g.neededAfter outputs rest h = true → e.slotOf[h]? = some slot →
    ∃ v, g.value? interp assign h = some v ∧ slots.read slot = .ok v

/-- The inputs hold the values of the variables at their positions. -/
def Supplies (positions : Std.HashMap Handle Nat) (assign : Handle → Option α)
    (inputs : Array α) : Prop :=
  ∀ h position, positions[h]? = some position →
    ∃ v, assign h = some v ∧ inputs[position]? = some v

/-- The instruction of a node computes its value. -/
theorem Renders.value (hg : g.WellFormed) {n : Node} {i : Instruction}
    (hrenders : Renders positions e.slotOf node n i) (hn : g.node node = .ok n)
    (hinputs : Supplies positions assign inputs)
    (hholds : Holds g outputs (node :: rest) interp assign e slots) :
    ∃ v, g.value? interp assign node = some v ∧ i.value interp inputs slots = .ok v := by
  cases hrenders with
  | input hposition =>
      obtain ⟨v, hv, hfound⟩ := hinputs node _ hposition
      refine ⟨v, (Graph.value?_of_var hn).trans hv, ?_⟩
      rw [Instruction.value, hfound]
  | literal => exact ⟨_, Graph.value?_of_lit hn, rfl⟩
  | application hsources hi =>
      obtain ⟨vs, hvs, hread⟩ := Slots.exists_readAll hsources fun a ha slot hslot =>
        hholds a slot (Graph.neededAfter_cons.mpr
          (.inl (by rw [Graph.argsOf_of_node hn]; exact ha))) hslot
      obtain ⟨v, happlied, hvalue⟩ :=
        Instruction.value_of_ofApplication? hi interp inputs hread
      refine ⟨v, ?_, hvalue⟩
      rw [hg.value?_of_app hn, hvs]
      exact happlied

variable {before : List Handle} {lifetimes : Std.HashMap Handle Lifetime}

theorem count_le_of_step {index : Nat} {e' : Emission}
    (hstep : step g positions lifetimes index e node = .ok e') :
    e.pool.count ≤ e'.pool.count := by
  obtain ⟨n, released, i, -, -, -, -, rfl⟩ := step_eq_ok hstep
  rw [← SlotPool.count_releaseAll e.pool released]
  exact SlotPool.count_le_count_take _

theorem count_le_of_run {index : Nat} {order : List Handle} {final : Emission}
    (hrun : run g positions lifetimes index order e = .ok final) :
    e.pool.count ≤ final.pool.count := by
  induction order generalizing index e with
  | nil =>
      cases hrun
      exact Nat.le_refl _
  | cons node rest ih =>
      rw [run] at hrun
      obtain ⟨e', hstep, hrun⟩ := exists_of_bind_eq_ok hrun
      exact (count_le_of_step hstep).trans (ih hrun)

/-- Running the instruction of a node keeps what is needed after it. -/
theorem Holds.step (hg : g.WellFormed) (hinputs : Supplies positions assign inputs)
    (hlifetimes : g.lifetimes (before ++ node :: rest) outputs = .ok lifetimes)
    (hallocated : Allocated g outputs (node :: rest) e)
    (hholds : Holds g outputs (node :: rest) interp assign e slots) {e' : Emission}
    (hstep : Emission.step g positions lifetimes before.length e node = .ok e')
    (hsize : e'.pool.count ≤ slots.size) :
    ∃ i slots', e'.emitted = i :: e.emitted ∧ i.step interp inputs slots = .ok slots' ∧
      slots'.size = slots.size ∧ Allocated g outputs rest e' ∧
      Holds g outputs rest interp assign e' slots' := by
  obtain ⟨n, released, i, hn, hreleased, hdst, hrenders, rfl⟩ := step_eq_ok hstep
  have hallocated' := hallocated.step hn hlifetimes hreleased hdst
  obtain ⟨v, hv, hvalue⟩ := hrenders.value hg hn hinputs hholds
  have hself : (e.emit node (e.pool.releaseAll released).take.2 i).slotOf[node]? = some i.dst := by
    simp [emit]
  obtain ⟨slots', hwrite, hsame⟩ :=
    Slots.write_eq_ok v ((hallocated'.lt hself).trans_le hsize)
  refine ⟨i, slots', rfl, ?_, hsame, hallocated', ?_⟩
  · rw [Instruction.step, hvalue]
    exact hwrite
  · intro h slot hneeded hslot
    by_cases hnode : node = h
    · subst hnode
      obtain rfl := Option.some.inj (hself.symm.trans hslot)
      exact ⟨v, hv, Slots.read_write_self hwrite⟩
    · have hold : e.slotOf[h]? = some slot := by
        simpa [emit, Std.HashMap.getElem?_insert, hnode] using hslot
      obtain ⟨w, hw, hread⟩ := hholds h slot (Graph.neededAfter_cons.mpr (.inr hneeded)) hold
      refine ⟨w, hw, ?_⟩
      rw [Slots.read_write_of_ne hwrite]
      · exact hread
      · rw [hdst]
        exact hallocated.dst_ne hn hlifetimes hreleased hneeded hold

/-- Running the instructions of what is left of an order leaves the outputs in their slots. -/
theorem Holds.run (before : List Handle) (hg : g.WellFormed)
    (hinputs : Supplies positions assign inputs)
    (hlifetimes : g.lifetimes (before ++ rest) outputs = .ok lifetimes)
    (hallocated : Allocated g outputs rest e)
    (hholds : Holds g outputs rest interp assign e slots) {final : Emission}
    (hrun : Emission.run g positions lifetimes before.length rest e = .ok final)
    (hsize : final.pool.count ≤ slots.size) :
    ∃ is slots', final.emitted = is.reverse ++ e.emitted ∧
      Program.steps interp inputs is slots = .ok slots' ∧
      Holds g outputs [] interp assign final slots' := by
  induction rest generalizing before e slots with
  | nil =>
      cases hrun
      exact ⟨[], slots, rfl, rfl, hholds⟩
  | cons node rest ih =>
      rw [Emission.run] at hrun
      obtain ⟨e', hstep, hrun⟩ := exists_of_bind_eq_ok hrun
      obtain ⟨i, slots', hemitted, hi, hsame, hallocated', hholds'⟩ :=
        hholds.step hg hinputs hlifetimes hallocated hstep ((count_le_of_run hrun).trans hsize)
      have hlength : before.length + 1 = (before ++ [node]).length := by simp
      have hsplit : before ++ node :: rest = (before ++ [node]) ++ rest := by simp
      rw [hlength] at hrun
      rw [hsplit] at hlifetimes
      obtain ⟨is, final', hfinal, hsteps, hlast⟩ :=
        ih (before ++ [node]) hlifetimes hallocated' hholds' hrun (by rwa [hsame])
      refine ⟨i :: is, final', ?_, ?_, hlast⟩
      · rw [hfinal, hemitted, List.reverse_cons, List.append_assoc]
        rfl
      · rw [Program.steps, hi]
        exact hsteps

end Emission

end ExprGraph
