import ExprGraph.Graph.Walk
import ExprGraph.Derivative.Rule

/-!
# The memo

Derivatives and local partials that have been built once are kept, so that the entries of a
Jacobian share their work.  A memo belongs to one graph in one epoch; used with another it starts
over.
-/

namespace ExprGraph

/-- Derivatives and local partials built so far. -/
structure Memo where
  /-- Identity and epoch of the graph the entries belong to. -/
  generation : Option (UInt32 × UInt32) := none
  /-- The derivative of a node by a variable. -/
  derivatives : Std.HashMap (Handle × Handle) Handle := {}
  /-- The partial derivative of a node by one of its operands. -/
  partials : Std.HashMap (Handle × Nat) Handle := {}

/-- Identity and epoch, which tell the nodes of different graphs and epochs apart. -/
def Graph.generation (g : Graph) : UInt32 × UInt32 := (g.id, g.epoch)

namespace Memo

/-- A memo without entries. -/
def empty : Memo := {}

/-- The number of derivatives kept. -/
def size (memo : Memo) : Nat := memo.derivatives.size

/-- The memo itself if its entries belong to the generation, a fresh one otherwise. -/
def sync (memo : Memo) (generation : UInt32 × UInt32) : Memo :=
  if memo.generation = some generation then memo
  else { generation := some generation }

end Memo

/-- A graph with the memo of its derivatives. -/
structure Workspace where
  graph : Graph
  memo : Memo

/-- Work on a graph and a memo.  Both stay as they have become, also when the work fails. -/
abbrev DiffM := EStateM Failure Workspace

namespace DiffM

/-- Work on the graph alone. -/
def onGraph {α : Type} (work : BuildM α) : DiffM α := fun ⟨graph, memo⟩ =>
  match work graph with
  | .ok a graph => .ok a ⟨graph, memo⟩
  | .error e graph => .error e ⟨graph, memo⟩

/-- Reads the graph. -/
def inspect {α : Type} (f : Graph → Except GraphError α) : DiffM α := onGraph (BuildM.inspect f)

/-- Reads graph and memo. -/
def consult {α : Type} (f : Workspace → Except Failure α) : DiffM α := fun w =>
  match f w with
  | .ok a => .ok a w
  | .error e => .error e w

/-- Changes the memo. -/
def record (f : Memo → Memo) : DiffM Unit := fun ⟨graph, memo⟩ => .ok () ⟨graph, f memo⟩

/-- Drops the memo if it belongs to another graph or epoch. -/
def sync : DiffM Unit := fun ⟨graph, memo⟩ => .ok () ⟨graph, memo.sync graph.generation⟩

/-- Whether a handle names a zero literal. -/
def isZero (h : Handle) : DiffM Bool := consult fun w => .ok (w.graph.isZero h)

/-- The node of a literal. -/
def literal (v : Float) : DiffM Handle := onGraph (BuildM.literal v)

/-- The node of an application. -/
def operation (op : Op) (args : List Handle) : DiffM Handle := onGraph (BuildM.operation op args)

/-- The partial derivative of a node by one of its operands, built unless it is known. -/
def partialOf (node : Handle) (app : Application) (index : Nat) : DiffM Handle := do
  match ← consult fun w => .ok w.memo.partials[(node, index)]? with
  | some p => pure p
  | none =>
    let p ← onGraph ((app.op.partialBy index).build node app.args)
    record fun memo => { memo with partials := memo.partials.insert (node, index) p }
    pure p

/-- The chain rule from operand number `index` on: adds up the products of local partials and
tangents.  An operand with a zero tangent is skipped before its partial is asked for, and a zero
partial adds nothing. -/
def chainFrom (node : Handle) (app : Application) :
    Nat → List Handle → Option Handle → DiffM Handle
  | _, [], some total => pure total
  | _, [], none => literal 0.0
  | index, tangent :: rest, total => do
    if ← isZero tangent then
      chainFrom node app (index + 1) rest total
    else
      let p ← partialOf node app index
      if ← isZero p then
        chainFrom node app (index + 1) rest total
      else
        let term ← operation .mul [p, tangent]
        let total ← match total with
          | some before => operation .add [before, term]
          | none => pure term
        chainFrom node app (index + 1) rest (some total)

/-- The derivative of an application, given the tangents of its operands. -/
def chain (node : Handle) (app : Application) (tangents : List Handle) : DiffM Handle :=
  chainFrom node app 0 tangents none

end DiffM

end ExprGraph
