import ExprGraph.Program.Batch
import ExprGraph.Program.Compile
import ExprGraph.Program.Container

/-!
# Evaluators

An evaluator is a program together with the kind of container its outputs are written to.  It
either makes its output container, or writes into one that it is given.
-/

namespace ExprGraph

/-- Work on a container.  The container as it has become stays, also when the work fails. -/
abbrev ContainerM (α : Type) := EStateM Failure (Container α)

/-- Work that uses no container. -/
def ContainerM.compute {α β : Type} (work : Except Failure β) : ContainerM α β := fun target =>
  match work with
  | .ok b => .ok b target
  | .error e => .error e target

/-- A program and its kind of output container. -/
structure Evaluator where
  program : Program
  output : OutputKind
deriving DecidableEq

/-- Checks the kinds of container against the number of inputs and the shape of the outputs. -/
def checkContainers (input : InputKind) (output : OutputKind) (inputs : Nat) (shape : Shape) :
    Except GraphError Unit :=
  match input.length? with
  | some fixed =>
    if fixed ≠ inputs then .error (.shapeMismatch (.vector inputs) (.vector fixed))
    else checkOutput
  | none => checkOutput
where
  checkOutput : Except GraphError Unit :=
    if output.accepts shape then .ok ()
    else .error (.shapeMismatch shape (output.shape?.getD shape))

/-- Compiles a graph for kinds of container. -/
def Graph.evaluator (g : Graph) (input : InputKind) (output : OutputKind) (outputs : Outputs)
    (inputs : List Handle) (reuse : Bool) : Except Failure Evaluator := do
  liftError (checkContainers input output inputs.length outputs.shape)
  let program ← g.compile outputs inputs reuse
  return { program, output }

namespace Evaluator

variable {α : Type}

/-- Checks the number of inputs. -/
def checkInputs (ev : Evaluator) (length : Nat) : Except GraphError Unit :=
  if length = ev.program.inputCount then .ok ()
  else .error (.shapeMismatch (.vector ev.program.inputCount) (.vector length))

/-- Evaluates at one point, into a new container. -/
def evaluate (ev : Evaluator) (interp : Interpretation α) (inputs : List α) :
    Except Failure (Container α) := do
  liftError (ev.checkInputs inputs.length)
  let target := Container.filled (ev.output.allocated ev.program.shape) (interp.literal 0.0)
  let values ← liftFault (ev.program.run interp inputs.toArray)
  return target.write values

/-- Evaluates at one point, over the entries of the container. -/
def overwrite (ev : Evaluator) (interp : Interpretation α) (inputs : List α) :
    ContainerM α Unit := do
  ContainerM.compute (liftError (ev.checkInputs inputs.length))
  let target ← get
  if target.fits ev.output ev.program.shape then
    let values ← ContainerM.compute (liftFault (ev.program.run interp inputs.toArray))
    set (target.write values)
  else throw (.refused (.shapeMismatch ev.program.shape target.shape))

/-- A given container after an evaluation over its entries. -/
def evaluateInto (ev : Evaluator) (interp : Interpretation α) (inputs : List α)
    (target : Container α) : Except Failure (Container α) :=
  match ev.overwrite interp inputs target with
  | .ok () after => .ok after
  | .error e _ => .error e

/-- Evaluates at several points.  The first point that fails settles the error. -/
def evaluateAll (ev : Evaluator) (interp : Interpretation α) :
    List (List α) → Except Failure (List (Container α))
  | [] => .ok []
  | point :: rest => do
    let result ← ev.evaluate interp point
    return result :: (← ev.evaluateAll interp rest)

/-- Evaluates a batch of double precision points into given columns. -/
def evaluateBatch (ev : Evaluator) (columns outputs : List (Column Float)) :
    Except Failure (List (Column Float)) :=
  BatchM.columnsFrom outputs (ev.program.runBatch (.ofScalar Float) columns)

/-- Evaluates a batch of double precision points into fresh columns. -/
def evaluateChunked (ev : Evaluator) (columns : List (Column Float)) :
    Except Failure (List (Column Float)) :=
  ev.program.runChunkedBatch (.ofScalar Float) columns

end Evaluator

end ExprGraph
