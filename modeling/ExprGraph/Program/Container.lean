import ExprGraph.Shape

/-!
# Containers

Inputs are read from a container and outputs are written to one.  Some kinds of container have a
fixed extent, which is checked when a graph is compiled for them; the others are checked when they
are used.
-/

namespace ExprGraph

/-- The kinds of container inputs are read from. -/
inductive InputKind where
  /-- Any number of entries. -/
  | open
  /-- Exactly so many entries. -/
  | fixed (length : Nat)
deriving DecidableEq, Repr

/-- The length an input kind fixes, if any. -/
def InputKind.length? : InputKind → Option Nat
  | .open => none
  | .fixed n => some n

/-- The kinds of container outputs are written to. -/
inductive OutputKind where
  /-- A vector of any length, for outputs of any shape in row-major order. -/
  | flat
  /-- A matrix of any extent; a vector is a single column. -/
  | matrix
  /-- A vector of exactly so many entries, for outputs of any shape of that size. -/
  | fixed (length : Nat)
  /-- A matrix of exactly so many rows and columns. -/
  | grid (rows cols : Nat)
deriving DecidableEq, Repr

namespace OutputKind

/-- The shape an output kind fixes, if any. -/
def shape? : OutputKind → Option Shape
  | flat => none
  | matrix => none
  | fixed n => some (.vector n)
  | grid rows cols => some (.matrix rows cols)

/-- Whether containers of a kind can hold outputs of a shape. -/
def accepts : OutputKind → Shape → Bool
  | flat, _ => true
  | matrix, _ => true
  | fixed n, shape => shape.size == n
  | grid rows cols, shape => shape == .matrix rows cols

/-- The shape of a new container of a kind for outputs of an accepted shape. -/
def allocated : OutputKind → Shape → Shape
  | flat, shape => .vector shape.size
  | matrix, shape => .matrix shape.rowsAndCols.1 shape.rowsAndCols.2
  | fixed n, _ => .vector n
  | grid rows cols, _ => .matrix rows cols

end OutputKind

/-- A container of values, in row-major order. -/
structure Container (α : Type) where
  shape : Shape
  values : List α
deriving DecidableEq, Repr

namespace Container

variable {α : Type}

/-- A container has as many values as its shape has entries. -/
def Valid (c : Container α) : Prop := c.values.length = c.shape.size

/-- A container with the same value everywhere. -/
def filled (shape : Shape) (v : α) : Container α := ⟨shape, List.replicate shape.size v⟩

/-- Whether a container of a kind can receive outputs of a shape. -/
def fits (c : Container α) : OutputKind → Shape → Bool
  | .flat, shape => c.values.length == shape.size
  | .matrix, shape => c.shape.rowsAndCols == shape.rowsAndCols
  | .fixed n, shape => shape.size == n
  | .grid rows cols, shape => shape == .matrix rows cols

/-- Writes values over the entries from the first on, as far as both reach. -/
def overwriteList : List α → List α → List α
  | _ :: olds, new :: news => new :: overwriteList olds news
  | olds, _ => olds

/-- The container with values written over its entries. -/
def write (c : Container α) (values : List α) : Container α :=
  { c with values := overwriteList c.values values }

theorem length_overwriteList (olds news : List α) :
    (overwriteList olds news).length = olds.length := by
  fun_induction overwriteList olds news with
  | case1 old olds new news ih => simp [ih]
  | case2 => rfl

/-- As many values as there are entries replace all of them. -/
theorem overwriteList_eq {olds news : List α} (hlength : olds.length = news.length) :
    overwriteList olds news = news := by
  fun_induction overwriteList olds news with
  | case1 old olds new news ih => rw [ih (by simpa using hlength)]
  | case2 olds news hne =>
    cases olds with
    | nil =>
      cases news with
      | nil => rfl
      | cons => cases hlength
    | cons old olds =>
      cases news with
      | nil => cases hlength
      | cons new news => exact absurd rfl (hne old olds new news rfl)

theorem valid_filled (shape : Shape) (v : α) : (filled shape v).Valid := by
  simp [Valid, filled]

theorem Valid.write {c : Container α} (hc : c.Valid) (values : List α) :
    (c.write values).Valid := by
  have hlength : (overwriteList c.values values).length = c.values.length :=
    length_overwriteList c.values values
  exact hlength.trans hc

end Container

end ExprGraph
