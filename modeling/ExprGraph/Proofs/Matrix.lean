import Mathlib
import ExprGraph.Matrix

/-!
# Matrices of a function

A matrix whose entries are the values of a function of its rows and columns.  Choosing columns of
such a matrix is choosing arguments of the function, reading a row or a column fixes one argument,
and transposing exchanges the two.  A matrix with one entry for every row and column is such a
matrix, so the facts about tables are facts about all of them.
-/

namespace ExprGraph

/-- Rows of the same length are laid out one after the other. -/
theorem getElem?_flatten {α : Type} {rows : List (List α)} {cols : Nat}
    (hrows : ∀ row ∈ rows, row.length = cols) {i j : Nat} {row : List α} {a : α}
    (hrow : rows[i]? = some row) (ha : row[j]? = some a) :
    rows.flatten[i * cols + j]? = some a := by
  induction rows generalizing i with
  | nil => simp at hrow
  | cons first rest ih =>
      obtain ⟨hfirst, hrest⟩ := List.forall_mem_cons.mp hrows
      rw [List.flatten_cons]
      cases i with
      | zero =>
          obtain rfl : first = row := by simpa using hrow
          obtain ⟨hj, -⟩ := List.getElem?_eq_some_iff.mp ha
          rw [Nat.zero_mul, Nat.zero_add, List.getElem?_append_left hj, ha]
      | succ i =>
          have hplace : (i + 1) * cols + j - first.length = i * cols + j := by
            rw [hfirst, Nat.succ_mul]
            omega
          have hright : first.length ≤ (i + 1) * cols + j := by
            rw [hfirst, Nat.succ_mul]
            omega
          rw [List.getElem?_append_right hright, hplace]
          exact ih hrest (by simpa using hrow)

/-- Rows of the same length make up a rectangle. -/
theorem length_flatten_of_forall {α : Type} {rows : List (List α)} {cols : Nat}
    (hrows : ∀ row ∈ rows, row.length = cols) : rows.flatten.length = rows.length * cols := by
  have hsum : (rows.map List.length).sum = (rows.map List.length).length • cols :=
    List.sum_eq_card_nsmul _ _ (List.forall_mem_map.mpr hrows)
  rw [List.length_flatten, hsum, List.length_map, smul_eq_mul]

/-- Work that succeeds on every element gives the list of its results. -/
theorem mapM_eq_ok_of_forall₂ {ε β γ : Type} {f : β → Except ε γ} {bs : List β} {cs : List γ}
    (hf : List.Forall₂ (fun b c => f b = .ok c) bs cs) : bs.mapM f = .ok cs := by
  induction hf with
  | nil => rfl
  | cons hb _ ih =>
      rw [List.mapM_cons, hb, ih]
      rfl

namespace Matrix

theorem place_lt {rows cols r c : Nat} (hr : r < rows) (hc : c < cols) :
    r * cols + c < rows * cols :=
  calc r * cols + c < r * cols + cols := Nat.add_lt_add_left hc _
    _ = (r + 1) * cols := (Nat.succ_mul r cols).symm
    _ ≤ rows * cols := Nat.mul_le_mul_right cols hr

/-- Different entries have different places. -/
theorem place_inj {cols r r' c c' : Nat} (hc : c < cols) (hc' : c' < cols)
    (hplace : r * cols + c = r' * cols + c') : r = r' ∧ c = c' := by
  have hcols : 0 < cols := Nat.zero_lt_of_lt hc
  have hquotient : ∀ {q d : Nat}, d < cols → (q * cols + d) / cols = q := by
    intro q d hd
    rw [Nat.add_comm, Nat.add_mul_div_right _ _ hcols, Nat.div_eq_of_lt hd, Nat.zero_add]
  obtain rfl : r = r' :=
    calc r = (r * cols + c) / cols := (hquotient hc).symm
      _ = (r' * cols + c') / cols := by rw [hplace]
      _ = r' := hquotient hc'
  exact ⟨rfl, Nat.add_left_cancel hplace⟩

variable {α β γ : Type}

/-- Two matrices of one shape with the same entries are equal. -/
theorem Valid.ext {m m' : Matrix α} (hm : m.Valid) (hm' : m'.Valid) (hrows : m.rows = m'.rows)
    (hcols : m.cols = m'.cols)
    (hget : ∀ r c, r < m.rows → c < m.cols → m.get? r c = m'.get? r c) : m = m' := by
  obtain ⟨rows, cols, data⟩ := m
  obtain ⟨rows', cols', data'⟩ := m'
  obtain rfl : rows = rows' := hrows
  obtain rfl : cols = cols' := hcols
  have hdata : data = data' := by
    refine Array.ext_getElem? fun k => ?_
    by_cases hk : k < rows * cols
    · -- Place `k` belongs to the entry at row `k / cols` and column `k % cols`.
      have hcols : 0 < cols := Nat.pos_of_mul_pos_left (Nat.zero_lt_of_lt hk)
      have hrow : k / cols < rows := (Nat.div_lt_iff_lt_mul hcols).mpr hk
      have hcol : k % cols < cols := Nat.mod_lt _ hcols
      have hk := hget _ _ hrow hcol
      rw [get?, get?, if_pos ⟨hrow, hcol⟩, if_pos ⟨hrow, hcol⟩] at hk
      simpa only [Nat.div_add_mod'] using hk
    · have hsize : data.size = rows * cols := hm
      have hsize' : data'.size = rows * cols := hm'
      rw [Array.getElem?_eq_none (by omega), Array.getElem?_eq_none (by omega)]
  rw [hdata]

/-- The matrix of the values of a function at the elements of two lists. -/
def table (rows : List α) (cols : List β) (entry : α → β → γ) : Matrix γ :=
  ⟨rows.length, cols.length, (rows.map fun r => cols.map (entry r)).flatten.toArray⟩

variable {rows : List α} {cols picked : List β} {entry : α → β → γ} {i j : Nat}

@[simp] theorem rows_table : (table rows cols entry).rows = rows.length := rfl

@[simp] theorem cols_table : (table rows cols entry).cols = cols.length := rfl

theorem length_of_mem_tableRows :
    ∀ row ∈ rows.map fun r => cols.map (entry r), row.length = cols.length := by
  intro row hrow
  obtain ⟨r, -, rfl⟩ := List.mem_map.mp hrow
  exact List.length_map _

theorem valid_table : (table rows cols entry).Valid := by
  rw [Valid, table, List.size_toArray, length_flatten_of_forall length_of_mem_tableRows,
    List.length_map]

theorem data_table (hi : i < rows.length) (hj : j < cols.length) :
    (table rows cols entry).data[i * cols.length + j]? = some (entry rows[i] cols[j]) := by
  have hrow : (rows.map fun r => cols.map (entry r))[i]? = some (cols.map (entry rows[i])) := by
    rw [List.getElem?_map, List.getElem?_eq_getElem hi, Option.map_some]
  have hentry : (cols.map (entry rows[i]))[j]? = some (entry rows[i] cols[j]) := by
    rw [List.getElem?_map, List.getElem?_eq_getElem hj, Option.map_some]
  rw [table, List.getElem?_toArray]
  exact getElem?_flatten length_of_mem_tableRows hrow hentry

theorem get?_table (hi : i < rows.length) (hj : j < cols.length) :
    (table rows cols entry).get? i j = some (entry rows[i] cols[j]) := by
  rw [get?, rows_table, cols_table, if_pos ⟨hi, hj⟩, data_table hi hj]

theorem get?_table_eq_some_iff {c : γ} :
    (table rows cols entry).get? i j = some c ↔
      ∃ r col, rows[i]? = some r ∧ cols[j]? = some col ∧ entry r col = c := by
  constructor
  · intro hget
    obtain ⟨hi, hj⟩ : i < rows.length ∧ j < cols.length := by
      by_contra hout
      rw [get?, rows_table, cols_table, if_neg hout] at hget
      cases hget
    rw [get?_table hi hj] at hget
    exact ⟨_, _, List.getElem?_eq_getElem hi, List.getElem?_eq_getElem hj, Option.some.inj hget⟩
  · rintro ⟨r, col, hrow, hcol, rfl⟩
    obtain ⟨hi, rfl⟩ := List.getElem?_eq_some_iff.mp hrow
    obtain ⟨hj, rfl⟩ := List.getElem?_eq_some_iff.mp hcol
    exact get?_table hi hj

theorem get?_table_eq :
    (table rows cols entry).get? i j = rows[i]?.bind fun r => cols[j]?.map (entry r) := by
  refine Option.ext fun c => ?_
  simp only [get?_table_eq_some_iff, Option.bind_eq_some_iff, Option.map_eq_some_iff]
  constructor
  · rintro ⟨r, col, hrow, hcol, rfl⟩
    exact ⟨r, hrow, col, hcol, rfl⟩
  · rintro ⟨r, hrow, col, hcol, rfl⟩
    exact ⟨r, col, hrow, hcol, rfl⟩

theorem columnEntry_table (hi : i < rows.length) (hj : j < cols.length) :
    (table rows cols entry).columnEntry i j = .ok (entry rows[i] cols[j]) := by
  rw [columnEntry, cols_table, if_pos hj, data_table hi hj]

/-- Choosing columns by their places chooses the elements at these places. -/
theorem selectColumns_table {places : List Nat}
    (hplaces : List.Forall₂ (fun place col => cols[place]? = some col) places picked) :
    (table rows cols entry).selectColumns places = .ok (table rows picked entry) := by
  have hrows : (List.range rows.length).mapM
      (fun r => places.mapM fun c => (table rows cols entry).columnEntry r c) =
        .ok (rows.map fun r => picked.map (entry r)) := by
    refine mapM_eq_ok_of_forall₂ (List.forall₂_iff_get.mpr ⟨by simp, fun i hi hi' => ?_⟩)
    rw [List.length_range] at hi
    simp only [List.get_eq_getElem, List.getElem_range, List.getElem_map]
    refine mapM_eq_ok_of_forall₂ (List.forall₂_map_right_iff.mpr
      (hplaces.imp fun place col hplace => ?_))
    obtain ⟨hlt, rfl⟩ := List.getElem?_eq_some_iff.mp hplace
    exact columnEntry_table hi hlt
  rw [selectColumns, rows_table, hrows, hplaces.length_eq]
  rfl

/-- Columns that are there are the elements at their places. -/
theorem forall₂_pmap_getElem {places : List Nat}
    (hplaces : ∀ place ∈ places, place < cols.length) :
    List.Forall₂ (fun place col => cols[place]? = some col) places
      (places.pmap (fun place hplace => cols[place]) hplaces) := by
  refine List.forall₂_iff_get.mpr ⟨by rw [List.length_pmap], fun i hi hi' => ?_⟩
  simp only [List.get_eq_getElem, List.getElem_pmap]
  exact List.getElem?_eq_getElem _

/-- A table of one row is that row. -/
theorem row_table (r : α) : (table [r] cols entry).row 0 = .ok (cols.map (entry r)) := by
  simp [row, table]

/-- A row has the values with the same first argument. -/
theorem row_table_of_lt (hi : i < rows.length) :
    (table rows cols entry).row i = .ok (cols.map (entry rows[i])) := by
  have hsize : (table rows cols entry).data.size = rows.length * cols.length := valid_table
  have hend : (i + 1) * cols.length ≤ rows.length * cols.length := Nat.mul_le_mul_right _ hi
  have hrow : ((table rows cols entry).data.extract (i * cols.length)
      ((i + 1) * cols.length)).toList = cols.map (entry rows[i]) := by
    refine List.ext_getElem? fun j => ?_
    rw [Array.getElem?_toList, Array.getElem?_extract, hsize, Nat.min_eq_left hend, Nat.succ_mul,
      Nat.add_sub_cancel_left]
    split
    · next hj =>
      rw [data_table hi hj, List.getElem?_map, List.getElem?_eq_getElem hj, Option.map_some]
    · next hj =>
      rw [List.getElem?_map, List.getElem?_eq_none (Nat.le_of_not_lt hj), Option.map_none]
  rw [row, cols_table, if_pos (hsize ▸ hend), hrow]

theorem rowList_table :
    (table rows cols entry).rowList = .ok (rows.map fun r => cols.map (entry r)) := by
  refine mapM_eq_ok_of_forall₂ (List.forall₂_iff_get.mpr ⟨by simp, fun i hi _ => ?_⟩)
  rw [List.length_range] at hi
  simp only [List.get_eq_getElem, List.getElem_range, List.getElem_map]
  exact row_table_of_lt hi

/-- A column has the values with the same second argument. -/
theorem column_table (hj : j < cols.length) :
    (table rows cols entry).column j = .ok (rows.map fun r => entry r cols[j]) := by
  rw [column, cols_table, if_pos hj]
  refine mapM_eq_ok_of_forall₂ (List.forall₂_iff_get.mpr ⟨by simp, fun i hi _ => ?_⟩)
  rw [List.length_range] at hi
  simp only [List.get_eq_getElem, List.getElem_range, List.getElem_map]
  exact columnEntry_table hi hj

/-- Transposing exchanges the arguments. -/
theorem transpose_table :
    (table rows cols entry).transpose = .ok (table cols rows fun c r => entry r c) := by
  have hcols : (List.range cols.length).mapM
      (fun c => (List.range rows.length).mapM fun r => (table rows cols entry).columnEntry r c) =
        .ok (cols.map fun c => rows.map fun r => entry r c) := by
    refine mapM_eq_ok_of_forall₂ (List.forall₂_iff_get.mpr ⟨by simp, fun j hj _ => ?_⟩)
    rw [List.length_range] at hj
    simp only [List.get_eq_getElem, List.getElem_range, List.getElem_map]
    refine mapM_eq_ok_of_forall₂ (List.forall₂_iff_get.mpr ⟨by simp, fun i hi _ => ?_⟩)
    rw [List.length_range] at hi
    simp only [List.get_eq_getElem, List.getElem_range, List.getElem_map]
    exact columnEntry_table hi hj
  rw [transpose, rows_table, cols_table, hcols]
  rfl

/-- The rows of a table that has one put it together again. -/
theorem ofRows?_table (hrows : rows ≠ []) :
    ofRows? (rows.map fun r => cols.map (entry r)) = some (table rows cols entry) := by
  obtain ⟨r, rest, rfl⟩ := List.exists_cons_of_ne_nil hrows
  simp [ofRows?, table]

theorem toList_table (r : α) : (table [r] cols entry).toList = cols.map (entry r) := by
  simp [toList, table]

/-- A matrix with one entry for every row and column is the table of its entries. -/
theorem Valid.exists_table {m : Matrix α} (hm : m.Valid) :
    ∃ (rows cols : Nat) (entry : Fin rows → Fin cols → α),
      m = table (List.finRange rows) (List.finRange cols) entry := by
  have hsome : ∀ (r : Fin m.rows) (c : Fin m.cols), ∃ a, m.get? r c = some a := by
    intro r c
    have hplace : r * m.cols + c < m.data.size := by
      rw [hm]
      exact place_lt r.isLt c.isLt
    exact ⟨_, by rw [get?, if_pos ⟨r.isLt, c.isLt⟩, Array.getElem?_eq_getElem hplace]⟩
  choose entry hentry using hsome
  refine ⟨m.rows, m.cols, entry, hm.ext valid_table (by simp) (by simp) fun r c hr hc => ?_⟩
  rw [get?_table (by simpa using hr) (by simpa using hc), hentry ⟨r, hr⟩ ⟨c, hc⟩]
  simp

end Matrix

end ExprGraph
