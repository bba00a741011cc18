import ExprGraph.Graph.Walk
import ExprGraph.Program.Basic
import ExprGraph.Program.SlotPool
import ExprGraph.Matrix

/-!
# Compilation

The nodes below the outputs become instructions in the order of a walk, one each.  The slot of an
operand is released by its last user, before the slot of the result is taken; outputs keep theirs.
-/

namespace ExprGraph

/-- The nodes to compute, and the shape to present their values in. -/
structure Outputs where
  nodes : List Handle
  shape : Shape
deriving DecidableEq

namespace Outputs

/-- A vector of nodes. -/
def ofList (nodes : List Handle) : Outputs := ⟨nodes, .vector nodes.length⟩

/-- A single node, as a vector of one entry. -/
def ofHandle (node : Handle) : Outputs := ofList [node]

/-- A matrix of nodes. -/
def ofMatrix (m : Matrix Handle) : Outputs := ⟨m.toList, m.shape⟩

end Outputs

/-- How long the value of a node is needed. -/
inductive Lifetime where
  /-- Up to the instruction of a given number. -/
  | upTo (instruction : Nat)
  /-- To the end of the program. -/
  | always
deriving DecidableEq, Repr

namespace Graph

/-- The position of every input, given those before `position`. -/
def indexInputs (g : Graph) : Nat → List Handle → Std.HashMap Handle Nat →
    Except GraphError (Std.HashMap Handle Nat)
  | _, [], positions => .ok positions
  | position, h :: rest, positions => do
    let n ← g.node h
    if !n.isVariable then .error (.invalidInput position .notVariable)
    else if positions.contains h then .error (.invalidInput position .repeated)
    else g.indexInputs (position + 1) rest (positions.insert h position)

/-- Notes the last users among the nodes of an order, counted from `index` on. -/
def noteUses (g : Graph) : Nat → List Handle → Std.HashMap Handle Lifetime →
    Except GraphError (Std.HashMap Handle Lifetime)
  | _, [], lifetimes => .ok lifetimes
  | index, h :: rest, lifetimes => do
    let args ← g.operands h
    g.noteUses (index + 1) rest
      (args.foldl (fun noted a => noted.insert a (.upTo index)) lifetimes)

/-- How long the values of an order are needed.  Outputs are needed to the end. -/
def lifetimes (g : Graph) (order outputs : List Handle) :
    Except GraphError (Std.HashMap Handle Lifetime) := do
  let noted ← g.noteUses 0 order {}
  return outputs.foldl (fun noted out => noted.insert out .always) noted

end Graph

/-- The state of an emission. -/
structure Emission where
  pool : SlotPool
  /-- The slot of every node emitted so far. -/
  slotOf : Std.HashMap Handle Nat := {}
  /-- The instructions emitted so far, the last one first. -/
  emitted : List Instruction := []

namespace Emission

/-- The slots of some nodes. -/
def slots (e : Emission) : List Handle → Except Fault (List Nat)
  | [] => .ok []
  | h :: rest =>
    match e.slotOf[h]? with
    | none => .error .missingEntry
    | some slot => do return slot :: (← e.slots rest)

/-- The operands, without repetition, whose last user is instruction number `index`. -/
def dying (lifetimes : Std.HashMap Handle Lifetime) (index : Nat) (args : List Handle) :
    List Handle :=
  (args.filter fun a => lifetimes[a]? = some (.upTo index)).eraseDups

/-- Records the instruction of a node. -/
def emit (e : Emission) (node : Handle) (pool : SlotPool) (instruction : Instruction) :
    Emission :=
  { pool
    slotOf := e.slotOf.insert node instruction.dst
    emitted := instruction :: e.emitted }

/-- Emits the instruction of one node, number `index` of the order. -/
def step (g : Graph) (positions : Std.HashMap Handle Nat)
    (lifetimes : Std.HashMap Handle Lifetime) (index : Nat) (e : Emission) (node : Handle) :
    Except Failure Emission := do
  match ← liftError (g.node node) with
  | .var id name =>
    match positions[node]? with
    | none => .error (.refused (.missingInput name id))
    | some position =>
      let (dst, pool) := e.pool.take
      return e.emit node pool (.input dst position)
  | .lit v =>
    let (dst, pool) := e.pool.take
    return e.emit node pool (.literal dst v)
  | .app app =>
    let sources ← liftFault (e.slots app.args)
    let released ← liftFault (e.slots (dying lifetimes index app.args))
    let (dst, pool) := (e.pool.releaseAll released).take
    match Instruction.ofApplication? app.op dst sources with
    | some instruction => return e.emit node pool instruction
    | none => .error (.refused (.arityMismatch app.op sources.length))

/-- Emits the instructions of an order, counted from `index` on. -/
def run (g : Graph) (positions : Std.HashMap Handle Nat)
    (lifetimes : Std.HashMap Handle Lifetime) :
    Nat → List Handle → Emission → Except Failure Emission
  | _, [], e => .ok e
  | index, node :: rest, e => do
    run g positions lifetimes (index + 1) rest (← step g positions lifetimes index e node)

end Emission

/-- Compiles the nodes below the outputs.  The inputs are the variables a run reads, in order;
inputs that nothing uses are allowed. -/
def Graph.compile (g : Graph) (outputs : Outputs) (inputs : List Handle) (reuse : Bool) :
    Except Failure Program := do
  let positions ← liftError (g.indexInputs 0 inputs {})
  let order ← g.order outputs.nodes
  let lifetimes ← liftError (g.lifetimes order outputs.nodes)
  let e ← Emission.run g positions lifetimes 0 order { pool := { reuse } }
  let slots ← liftFault (e.slots outputs.nodes)
  return {
    instructions := e.emitted.reverse
    outputs := slots
    slotCount := e.pool.count
    inputCount := inputs.length
    shape := outputs.shape }

end ExprGraph
