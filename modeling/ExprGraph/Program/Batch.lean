import ExprGraph.Program.Run
import ExprGraph.Scalar.Float

/-!
# Batches

A batch runs a program at many points.  Its inputs and outputs are columns: column `j` holds input
or output `j` at every point.  Points are taken in groups of four from the start, and each group
runs as one point of lanes over slots that all groups share; the last one to three points run one
by one.

In a group the negation of `x` is computed as `0.0 - x`.  For a zero that is `0.0`, where the
negation of `0.0` at a single point is `-0.0`.
-/

namespace ExprGraph

/-- Four values side by side. -/
abbrev Lanes (α : Type) := Vector α 4

namespace Interpretation

variable {α : Type}

/-- The interpretation that negates by subtracting from zero. -/
def negatingFromZero (interp : Interpretation α) : Interpretation α :=
  { interp with
    unary := fun op a =>
      if op = .neg then interp.binary .sub (interp.literal 0.0) a else interp.unary op a }

section NegatingFromZero

variable (interp : Interpretation α)

@[simp]
theorem negatingFromZero_neg (a : α) :
    interp.negatingFromZero.unary .neg a = interp.binary .sub (interp.literal 0.0) a := by
  simp [negatingFromZero]

theorem negatingFromZero_unary {op : Op} (hop : op ≠ .neg) (a : α) :
    interp.negatingFromZero.unary op a = interp.unary op a := by
  simp [negatingFromZero, hop]

@[simp]
theorem negatingFromZero_literal (v : Float) :
    interp.negatingFromZero.literal v = interp.literal v := rfl

@[simp]
theorem negatingFromZero_binary (op : Op) (a b : α) :
    interp.negatingFromZero.binary op a b = interp.binary op a b := rfl

@[simp]
theorem negatingFromZero_choose (c a b : α) :
    interp.negatingFromZero.choose c a b = interp.choose c a b := rfl

end NegatingFromZero

/-- The interpretation of each lane on its own. -/
def lanes (interp : Interpretation α) : Interpretation (Lanes α) where
  literal v := Vector.replicate 4 (interp.literal v)
  unary op a := a.map (interp.unary op)
  binary op a b := Vector.ofFn fun lane => interp.binary op a[lane] b[lane]
  choose test a b := Vector.ofFn fun lane => interp.choose test[lane] a[lane] b[lane]

end Interpretation

/-- A column of values, one for every point. -/
abbrev Column (α : Type) := Array α

/-- Work on the output columns of a batch.  The columns as they have become stay, also when the
work fails. -/
abbrev BatchM (α : Type) := EStateM Failure (List (Column α))

namespace Column

variable {α : Type}

/-- The value of a column at a point. -/
def at? (column : Column α) (point : Nat) : Except Fault α :=
  match column[point]? with
  | some v => .ok v
  | none => .error .badIndex

/-- The values of a column at four points from `base` on. -/
def group (column : Column α) (base : Nat) : Except Fault (Lanes α) := do
  let v0 ← at? column base
  let v1 ← at? column (base + 1)
  let v2 ← at? column (base + 2)
  let v3 ← at? column (base + 3)
  return #v[v0, v1, v2, v3]

/-- The values of a column at the points from `start` up to `stop`. -/
def slice (column : Column α) (start stop : Nat) : Except Fault (Column α) :=
  if start ≤ stop ∧ stop ≤ column.size then .ok (column.extract start stop) else .error .badIndex

/-- Writes another value at a point. -/
def put (point : Nat) (v : α) : EStateM Fault (Column α) Unit := fun column =>
  if point < column.size then .ok () (column.setIfInBounds point v) else .error .badIndex column

/-- Writes other values at four points from `base` on. -/
def putGroup (base : Nat) (v : Lanes α) : EStateM Fault (Column α) Unit := do
  put base v[0]
  put (base + 1) v[1]
  put (base + 2) v[2]
  put (base + 3) v[3]

/-- The column with the values of another one at the points from `start` on. -/
def patch (column : Column α) (start : Nat) (part : Column α) : Column α :=
  column.extract 0 start ++ part ++ column.extract (start + part.size) column.size

/-- Writes the values of another column at the points from `start` on. -/
def copyPart (start : Nat) (part : Column α) : EStateM Fault (Column α) Unit := fun column =>
  if start + part.size ≤ column.size then .ok () (column.patch start part)
  else .error .badIndex column

end Column

namespace BatchM

variable {α β : Type}

/-- Work that uses no output column. -/
def compute (work : Except Fault β) : BatchM α β := fun outputs =>
  match work with
  | .ok b => .ok b outputs
  | .error e => .error (.fault e) outputs

/-- What can be told from the output columns, which stay as they are. -/
def inspect (look : List (Column α) → Except GraphError β) : BatchM α β := fun outputs =>
  match look outputs with
  | .ok b => .ok b outputs
  | .error e => .error (.refused e) outputs

/-- Changes every column by the value beside it; columns without one stay. -/
def overwrite (change : β → EStateM Fault (Column α) Unit) : List β → BatchM α Unit
  | v :: values, column :: columns =>
    match change v column with
    | .error e column => .error (.fault e) (column :: columns)
    | .ok () column =>
      match overwrite change values columns with
      | .ok () columns => .ok () (column :: columns)
      | .error e columns => .error e (column :: columns)
  | _, columns => .ok () columns

/-- The output columns after some work on them. -/
def columnsFrom (outputs : List (Column α)) (work : BatchM α Unit) :
    Except Failure (List (Column α)) :=
  match work outputs with
  | .ok () after => .ok after
  | .error e _ => .error e

end BatchM

namespace Program

variable {α : Type}

/-- The first column whose length is not the given one. -/
def checkLengths (points : Nat) : List (Column α) → Except GraphError Unit
  | [] => .ok ()
  | column :: rest =>
    if column.size = points then checkLengths points rest
    else .error (.sizeMismatch points column.size)

/-- The first column that is shorter than a given length. -/
def checkRoom (points : Nat) : List (Column α) → Except GraphError Unit
  | [] => .ok ()
  | column :: rest =>
    if points ≤ column.size then checkRoom points rest
    else .error (.sizeMismatch points column.size)

/-- The number of points of a batch: the length of the first input column or, without inputs, of
the shortest output column. -/
def pointCount (columns outputs : List (Column α)) : Nat :=
  match columns with
  | first :: _ => first.size
  | [] => ((outputs.map Array.size).min?).getD 0

/-- Checks the columns of a batch and gives its number of points. -/
def checkBatch (p : Program) (columns outputs : List (Column α)) : Except GraphError Nat := do
  if columns.length ≠ p.inputCount then
    .error (.sizeMismatch p.inputCount columns.length)
  else if outputs.length ≠ p.outputs.length then
    .error (.sizeMismatch p.outputs.length outputs.length)
  else
    let points := pointCount columns outputs
    checkLengths points columns
    checkRoom points outputs
    return points

/-- Runs the groups of four points from `base` on, over slots that the groups share. -/
def runGroups (p : Program) (interp : Interpretation α) (columns : List (Column α)) :
    Nat → Nat → Slots (Lanes α) → BatchM α Unit
  | 0, _, _ => pure ()
  | groups + 1, base, slots => do
    let inputs ← BatchM.compute (columns.mapM fun column => Column.group column base)
    let slots ← BatchM.compute (p.execute interp.negatingFromZero.lanes inputs.toArray slots)
    let values ← BatchM.compute (slots.readAll p.outputs)
    BatchM.overwrite (Column.putGroup base) values
    p.runGroups interp columns groups (base + 4) slots

/-- Runs single points from `point` on. -/
def runPoints (p : Program) (interp : Interpretation α) (columns : List (Column α)) :
    Nat → Nat → BatchM α Unit
  | 0, _ => pure ()
  | points + 1, point => do
    let inputs ← BatchM.compute (columns.mapM fun column => Column.at? column point)
    let values ← BatchM.compute (p.run interp inputs.toArray)
    BatchM.overwrite (Column.put point) values
    p.runPoints interp columns points (point + 1)

/-- Runs a program at every point of a batch.  Output columns may be longer than the batch; what
lies beyond it stays. -/
def runBatch (p : Program) (interp : Interpretation α) (columns : List (Column α)) :
    BatchM α Unit := do
  let points ← BatchM.inspect (p.checkBatch columns)
  let groups := points / 4
  p.runGroups interp columns groups 0 (Slots.empty p.slotCount)
  p.runPoints interp columns (points % 4) (4 * groups)

/-- The points of a chunk of a large batch. -/
def chunkSize : Nat := 256

/-- The first points of the chunks of a batch. -/
def chunkStarts (points : Nat) : List Nat :=
  (List.range ((points + chunkSize - 1) / chunkSize)).map fun chunk => chunkSize * chunk

/-- Fresh output columns, one for every entry of the outputs. -/
def blank (p : Program) (interp : Interpretation α) (points : Nat) : List (Column α) :=
  List.replicate p.shape.size (Array.replicate points (interp.literal 0.0))

/-- Runs the chunk of a batch that starts at a point, into fresh output columns. -/
def runChunk (p : Program) (interp : Interpretation α) (columns : List (Column α))
    (points start : Nat) : Except Failure (List (Column α)) := do
  let stop := min (start + chunkSize) points
  let part ← liftFault (columns.mapM fun column => Column.slice column start stop)
  BatchM.columnsFrom (p.blank interp (stop - start)) (p.runBatch interp part)

/-- Runs a batch into fresh output columns, chunk by chunk when it is large.  Without inputs there
is one point. -/
def runChunkedBatch (p : Program) (interp : Interpretation α) (columns : List (Column α)) :
    Except Failure (List (Column α)) := do
  let points := (columns.head?.map Array.size).getD 1
  let outputs := p.blank interp points
  let _ ← liftError (p.checkBatch columns outputs)
  if points < chunkSize then BatchM.columnsFrom outputs (p.runBatch interp columns)
  else
    let chunks ← (chunkStarts points).mapM fun start => do
      return (start, ← p.runChunk interp columns points start)
    BatchM.columnsFrom outputs <| chunks.forM fun (start, computed) =>
      BatchM.overwrite (Column.copyPart start) computed

end Program

end ExprGraph
