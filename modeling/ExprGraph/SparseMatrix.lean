import ExprGraph.Node

/-!
# Sparse matrices

The entries of a matrix of nodes that are not structurally zero, ordered by row and column.
-/

namespace ExprGraph

/-- The stored entries of a matrix, in row-major order. -/
structure SparseMatrix where
  rows : Nat
  cols : Nat
  /-- Row, column and node of every stored entry. -/
  entries : Array (Nat × Nat × Handle)
deriving DecidableEq, Repr

namespace SparseMatrix

/-- The number of stored entries. -/
def count (m : SparseMatrix) : Nat := m.entries.size

/-- Row and column of every stored entry. -/
def pattern (m : SparseMatrix) : List (Nat × Nat) :=
  m.entries.toList.map fun (row, col, _) => (row, col)

/-- The row-major order of positions. -/
def before (p q : Nat × Nat) : Bool := p.1 < q.1 || (p.1 == q.1 && p.2 < q.2)

theorem before_irrefl (p : Nat × Nat) : before p p = false := by
  simp [before]

theorem before_trans {p q r : Nat × Nat} (hpq : before p q = true) (hqr : before q r = true) :
    before p r = true := by
  simp only [before, Bool.or_eq_true, Bool.and_eq_true, beq_iff_eq, decide_eq_true_eq] at *
  omega

/-- Of two positions one comes first, unless they are the same. -/
theorem eq_of_not_before {p q : Nat × Nat} (hpq : before p q = false)
    (hqp : before q p = false) : p = q := by
  simp only [before, Bool.or_eq_false_iff, Bool.and_eq_false_iff, beq_eq_false_iff_ne,
    decide_eq_false_iff_not] at hpq hqp
  apply Prod.ext <;> omega

/-- Binary search for a position among the entries from `low` up to but not including `high`. -/
def search (entries : Array (Nat × Nat × Handle)) (position : Nat × Nat) (low high : Nat) :
    Option Handle :=
  if low < high then
    let middle := (low + high) / 2
    match entries[middle]? with
    | none => none
    | some (row, col, node) =>
      if before (row, col) position then search entries position (middle + 1) high
      else if before position (row, col) then search entries position low middle
      else some node
  else none
termination_by high - low
decreasing_by all_goals omega

/-- The stored node at a row and column. -/
def get? (m : SparseMatrix) (row col : Nat) : Option Handle :=
  search m.entries (row, col) 0 m.entries.size

end SparseMatrix

end ExprGraph
