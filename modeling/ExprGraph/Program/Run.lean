import ExprGraph.Interpretation
import ExprGraph.Program.Basic

/-!
# Running programs

A run keeps its values in slots that are empty at first.  Reading an empty slot, or accessing a
slot or an input that does not exist, is a fault.
-/

namespace ExprGraph

universe u

/-- The slots of a run; a slot that has not been written is empty. -/
abbrev Slots (α : Type u) := Array (Option α)

namespace Slots

variable {α : Type u}

/-- Empty slots. -/
def empty (count : Nat) : Slots α := Array.replicate count none

/-- Reads a slot. -/
def read (slots : Slots α) (slot : Nat) : Except Fault α :=
  match slots[slot]? with
  | some (some v) => .ok v
  | _ => .error .badSlot

/-- Writes a slot. -/
def write (slots : Slots α) (slot : Nat) (v : α) : Except Fault (Slots α) :=
  if slot < slots.size then .ok (slots.setIfInBounds slot (some v)) else .error .badSlot

theorem read_write_self {slots written : Slots α} {slot : Nat} {v : α}
    (hwrite : slots.write slot v = .ok written) : written.read slot = .ok v := by
  unfold write at hwrite
  split at hwrite
  · next hslot =>
    cases hwrite
    simp [read, hslot]
  · cases hwrite

theorem read_write_of_ne {slots written : Slots α} {slot other : Nat} {v : α}
    (hwrite : slots.write slot v = .ok written) (hne : slot ≠ other) :
    written.read other = slots.read other := by
  unfold write at hwrite
  split at hwrite
  · cases hwrite
    simp [read, hne]
  · cases hwrite

/-- Reads several slots. -/
def readAll (slots : Slots α) : List Nat → Except Fault (List α)
  | [] => .ok []
  | slot :: rest => do
    let v ← slots.read slot
    return v :: (← slots.readAll rest)

end Slots

namespace Instruction

variable {α : Type u}

/-- The value an instruction computes. -/
def value (interp : Interpretation α) (inputs : Array α) (slots : Slots α) :
    Instruction → Except Fault α
  | input _ index =>
    match inputs[index]? with
    | some v => .ok v
    | none => .error .badIndex
  | literal _ v => .ok (interp.literal v)
  | unary op _ a => do return interp.unary op (← slots.read a)
  | binary op _ a b => do
    let x ← slots.read a
    let y ← slots.read b
    return interp.binary op x y
  | select _ c a b => do
    let test ← slots.read c
    let first ← slots.read a
    let second ← slots.read b
    return interp.choose test first second

/-- The slots after an instruction. -/
def step (interp : Interpretation α) (inputs : Array α) (slots : Slots α) (i : Instruction) :
    Except Fault (Slots α) := do
  let v ← i.value interp inputs slots
  slots.write i.dst v

end Instruction

namespace Program

variable {α : Type u}

/-- The slots after some instructions. -/
def steps (interp : Interpretation α) (inputs : Array α) :
    List Instruction → Slots α → Except Fault (Slots α)
  | [], slots => .ok slots
  | i :: rest, slots => do
    let slots ← i.step interp inputs slots
    steps interp inputs rest slots

/-- The slots after a run that finds its slots as given. -/
def execute (p : Program) (interp : Interpretation α) (inputs : Array α) (slots : Slots α) :
    Except Fault (Slots α) :=
  steps interp inputs p.instructions slots

/-- The outputs of a run over empty slots. -/
def run (p : Program) (interp : Interpretation α) (inputs : Array α) : Except Fault (List α) := do
  let slots ← p.execute interp inputs (Slots.empty p.slotCount)
  slots.readAll p.outputs

end Program

end ExprGraph
