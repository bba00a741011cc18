/-!
# Shapes

The extents of the containers that inputs are read from and outputs are written to.
-/

namespace ExprGraph

/-- The extent of a container. -/
inductive Shape where
  | vector (length : Nat)
  | matrix (rows cols : Nat)
deriving DecidableEq, Repr, Inhabited

namespace Shape

/-- The number of entries. -/
def size : Shape → Nat
  | vector n => n
  | matrix rows cols => rows * cols

/-- Whether there are no entries. -/
def isEmpty (shape : Shape) : Bool := shape.size == 0

/-- The shape as rows and columns; a vector is a single column. -/
def rowsAndCols : Shape → Nat × Nat
  | vector n => (n, 1)
  | matrix rows cols => (rows, cols)

/-- The text of a shape in messages and listings. -/
def text : Shape → String
  | vector n => s!"[{n}]"
  | matrix rows cols => s!"[{rows}x{cols}]"

theorem rowsAndCols_size (shape : Shape) :
    shape.rowsAndCols.1 * shape.rowsAndCols.2 = shape.size := by
  cases shape <;> simp [rowsAndCols, size]

end Shape

end ExprGraph
