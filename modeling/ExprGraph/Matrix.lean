import ExprGraph.Error

/-!
# Dense matrices

Matrices with their entries in row-major order: the entry at row `r` and column `c` of a matrix
with `cols` columns is number `r * cols + c`.
-/

namespace ExprGraph

/-- A dense row-major matrix. -/
structure Matrix (α : Type) where
  rows : Nat
  cols : Nat
  data : Array α
deriving DecidableEq, Repr

namespace Matrix

variable {α : Type}

/-- The invariant of a matrix: one entry for every row and column. -/
def Valid (m : Matrix α) : Prop := m.data.size = m.rows * m.cols

/-- A matrix of row-major entries, if their number is right. -/
def ofArray? (rows cols : Nat) (data : Array α) : Option (Matrix α) :=
  if data.size = rows * cols then some ⟨rows, cols, data⟩ else none

/-- A matrix of rows, if they are equally long. -/
def ofRows? (rows : List (List α)) : Option (Matrix α) :=
  let cols := (rows.head?.map List.length).getD 0
  if rows.all fun row => row.length == cols then
    some ⟨rows.length, cols, rows.flatten.toArray⟩
  else none

/-- A matrix with the same entry everywhere. -/
def filled (rows cols : Nat) (value : α) : Matrix α :=
  ⟨rows, cols, Array.replicate (rows * cols) value⟩

def shape (m : Matrix α) : Shape := .matrix m.rows m.cols

/-- The entry at a row and column, if they are in range. -/
def get? (m : Matrix α) (row col : Nat) : Option α :=
  if row < m.rows ∧ col < m.cols then m.data[row * m.cols + col]? else none

/-- The entry at a row and column. -/
def entry (m : Matrix α) (row col : Nat) : Except Fault α :=
  match m.get? row col with
  | some a => .ok a
  | none => .error (.indexOutOfRange row col m.rows m.cols)

/-- The matrix with another entry at a row and column. -/
def set (m : Matrix α) (row col : Nat) (value : α) : Except Fault (Matrix α) :=
  if row < m.rows ∧ col < m.cols then
    .ok { m with data := m.data.setIfInBounds (row * m.cols + col) value }
  else .error (.indexOutOfRange row col m.rows m.cols)

/-- The matrix with another entry at a place of the row-major order; unchanged when there is no
such place. -/
def setFlat (m : Matrix α) (place : Nat) (value : α) : Matrix α :=
  { m with data := m.data.setIfInBounds place value }

/-- One row.  Without columns every row is empty, whatever its number. -/
def row (m : Matrix α) (r : Nat) : Except Fault (List α) :=
  if (r + 1) * m.cols ≤ m.data.size then
    .ok (m.data.extract (r * m.cols) ((r + 1) * m.cols)).toList
  else .error .rowOutOfRange

/-- All rows, in order. -/
def rowList (m : Matrix α) : Except Fault (List (List α)) :=
  (List.range m.rows).mapM m.row

/-- One entry of a column that is in range. -/
def columnEntry (m : Matrix α) (row col : Nat) : Except Fault α :=
  if col < m.cols then
    match m.data[row * m.cols + col]? with
    | some a => .ok a
    | none => .error .badIndex
  else .error (.columnOutOfRange col)

/-- One column, from top to bottom. -/
def column (m : Matrix α) (col : Nat) : Except Fault (List α) :=
  if col < m.cols then (List.range m.rows).mapM fun r => m.columnEntry r col
  else .error (.columnOutOfRange col)

/-- The matrix of the given columns, in the given order.  Without rows no column is looked at. -/
def selectColumns (m : Matrix α) (cols : List Nat) : Except Fault (Matrix α) := do
  let rows ← (List.range m.rows).mapM fun r => cols.mapM fun c => m.columnEntry r c
  return ⟨m.rows, cols.length, rows.flatten.toArray⟩

/-- The matrix with rows and columns exchanged. -/
def transpose (m : Matrix α) : Except Fault (Matrix α) := do
  let cols ← (List.range m.cols).mapM fun c => (List.range m.rows).mapM fun r => m.columnEntry r c
  return ⟨m.cols, m.rows, cols.flatten.toArray⟩

/-- The entries in row-major order. -/
def toList (m : Matrix α) : List α := m.data.toList

theorem valid_of_ofArray? {rows cols : Nat} {data : Array α} {m : Matrix α}
    (hm : ofArray? rows cols data = some m) : m.Valid := by
  simp only [ofArray?] at hm
  split at hm
  · next hsize =>
    cases hm
    exact hsize
  · cases hm

theorem valid_set {m changed : Matrix α} (hm : m.Valid) {row col : Nat} {value : α}
    (hset : m.set row col value = .ok changed) : changed.Valid := by
  unfold set at hset
  split at hset
  · cases hset
    simpa [Valid] using hm
  · cases hset

theorem valid_filled (rows cols : Nat) (value : α) : (filled rows cols value).Valid := by
  simp [Valid, filled]

theorem valid_setFlat {m : Matrix α} (hm : m.Valid) (place : Nat) (value : α) :
    (m.setFlat place value).Valid := by
  simpa [Valid, setFlat] using hm

end Matrix

end ExprGraph
