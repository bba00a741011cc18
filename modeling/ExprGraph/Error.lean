import ExprGraph.Node
import ExprGraph.Shape

/-!
# Errors and faults

An error is the answer to a call with unusable arguments.  A fault is an access outside a
container, or a broken promise between two parts of the library.
-/

namespace ExprGraph

/-- What is wrong with an entry of an input list. -/
inductive InputDefect where
  | notVariable
  | repeated
deriving DecidableEq, Repr

/-- The text of a defect. -/
def InputDefect.text : InputDefect → String
  | notVariable => "not a variable"
  | repeated => "variable listed more than once"

/-- Why a call is refused. -/
inductive GraphError where
  /-- Differentiation by a node that is no variable. -/
  | notDifferentiable (description : String)
  /-- A requested column is not among the differentiation variables. -/
  | unknownColumn (position : Nat)
  /-- The outputs use a variable that is not among the inputs. -/
  | missingInput (name : String) (id : Nat)
  | invalidInput (position : Nat) (defect : InputDefect)
  | shapeMismatch (expected got : Shape)
  | sizeMismatch (expected got : Nat)
  | arityMismatch (op : Op) (got : Nat)
  /-- A handle from before the graph was last cleared. -/
  | staleNode (epoch current : UInt32)
  /-- A handle of another graph. -/
  | foreignNode
deriving DecidableEq, Repr

/-- The message of an error. -/
def GraphError.message : GraphError → String
  | notDifferentiable description =>
    "Cannot differentiate with respect to " ++ description ++ ": target must be a variable"
  | unknownColumn position =>
    s!"Jacobian column {position} is not one of the differentiation variables"
  | missingInput name id =>
    s!"Variable '{name}' (id {id}) is used by the graph but missing from the inputs"
  | invalidInput position defect => s!"Invalid input at position {position}: " ++ defect.text
  | shapeMismatch expected got =>
    "Shape mismatch: expected " ++ expected.text ++ ", got " ++ got.text
  | sizeMismatch expected got => s!"Dimension mismatch: expected {expected}, got {got}"
  | arityMismatch op got =>
    "Operator '" ++ op.name ++ s!"' takes {op.arity} operand(s), got {got}"
  | staleNode epoch current =>
    s!"Stale node from cache epoch {epoch} used after clear_cache (current epoch {current})"
  | foreignNode => "Node belongs to a different context"

/-- An access outside a container, or a lookup that should have found something. -/
inductive Fault where
  | columnOutOfRange (col : Nat)
  | indexOutOfRange (row col rows cols : Nat)
  | rowOutOfRange
  /-- A table has no entry for a node that was to be in it. -/
  | missingEntry
  /-- A slot was read before it was written, or lies outside the slots. -/
  | badSlot
  /-- An input or output column was accessed outside its length. -/
  | badIndex
  /-- A loop used up the steps it was given. -/
  | exhausted
deriving DecidableEq, Repr

/-- The message of a fault, for those that have one. -/
def Fault.message? : Fault → Option String
  | columnOutOfRange col => some s!"column {col} out of range"
  | indexOutOfRange row col rows cols =>
    some s!"index ({row}, {col}) out of range for {rows}x{cols} matrix"
  | _ => none

/-- Why a call has no result. -/
inductive Failure where
  | refused (error : GraphError)
  | fault (fault : Fault)
deriving DecidableEq, Repr

/-- An outcome that can only be an error, among all failures. -/
def liftError {α : Type} : Except GraphError α → Except Failure α
  | .ok a => .ok a
  | .error e => .error (.refused e)

/-- An outcome that can only be a fault, among all failures. -/
def liftFault {α : Type} : Except Fault α → Except Failure α
  | .ok a => .ok a
  | .error e => .error (.fault e)

end ExprGraph
