import Mathlib
import ExprGraph.SparseMatrix
import ExprGraph.Proofs.Matrix

/-!
# Looking up entries of sparse matrices

A search compares positions, so what it finds is stored there, whatever is asked for.  When the
entries are in row-major order it finds every one of them.  They are in that order when they are
taken row by row from a dense matrix.
-/

namespace ExprGraph

namespace SparseMatrix

/-- The row and column of an entry. -/
def place (entry : Nat × Nat × Handle) : Nat × Nat := (entry.1, entry.2.1)

/-- The positions of the entries increase in row-major order. -/
def Sorted (m : SparseMatrix) : Prop :=
  m.pattern.Pairwise fun p q => before p q = true

variable {m : SparseMatrix} {entry entry' : Nat × Nat × Handle} {i j low high r c : Nat}
  {d : Handle}

theorem before_eq_true_iff {p q : Nat × Nat} :
    before p q = true ↔ p.1 < q.1 ∨ p.1 = q.1 ∧ p.2 < q.2 := by
  simp [before]

theorem Sorted.before_of_lt (hm : m.Sorted) (hi : m.entries[i]? = some entry)
    (hj : m.entries[j]? = some entry') (hlt : i < j) :
    before (place entry) (place entry') = true := by
  have hpairwise := List.pairwise_map.mp hm
  obtain ⟨hi', rfl⟩ := Array.getElem?_eq_some_iff.mp hi
  obtain ⟨hj', rfl⟩ := Array.getElem?_eq_some_iff.mp hj
  exact List.pairwise_iff_getElem.mp hpairwise i j (by simpa using hi') (by simpa using hj') hlt

/-- Entries are in the order of their positions. -/
theorem Sorted.lt_of_before (hm : m.Sorted) (hi : m.entries[i]? = some entry)
    (hj : m.entries[j]? = some entry') (hbefore : before (place entry) (place entry') = true) :
    i < j := by
  by_contra hge
  have hcycle : before (place entry) (place entry) = true := by
    rcases (Nat.not_lt.mp hge).lt_or_eq with hgt | rfl
    · exact before_trans hbefore (hm.before_of_lt hj hi hgt)
    · obtain rfl := Option.some.inj (hi.symm.trans hj)
      exact hbefore
  rw [before_irrefl] at hcycle
  cases hcycle

/-- What a search finds is stored at the position, in whatever order the entries are. -/
theorem mem_of_search (hfound : search m.entries (r, c) low high = some d) :
    (r, c, d) ∈ m.entries := by
  fun_induction search m.entries (r, c) low high with
  | case1 | case5 => cases hfound
  | case2 low high hlt middle row col node hentry hbefore ih => exact ih hfound
  | case3 low high hlt middle row col node hentry hafter hbefore ih => exact ih hfound
  | case4 low high hlt middle row col node hentry hafter hbefore =>
      cases hfound
      have hplace : (row, col) = (r, c) :=
        eq_of_not_before (by simpa using hafter) (by simpa using hbefore)
      cases hplace
      exact Array.mem_of_getElem? hentry

/-- Among sorted entries a search finds every one that is in its range. -/
theorem Sorted.search_of_getElem? (hm : m.Sorted)
    (hentry : m.entries[i]? = some (r, c, d)) (hlow : low ≤ i)
    (hhigh : i < high) (hsize : high ≤ m.entries.size) :
    search m.entries (r, c) low high = some d := by
  fun_induction search m.entries (r, c) low high with
  | case1 low high hlt middle hnone =>
      have hmiddle := Array.getElem?_eq_none_iff.mp hnone
      omega
  | case2 low high hlt middle row col node hmiddle hbefore ih =>
      exact ih (hm.lt_of_before hmiddle hentry hbefore) hhigh hsize
  | case3 low high hlt middle row col node hmiddle _ hbefore ih =>
      exact ih hlow (hm.lt_of_before hentry hmiddle hbefore) (by omega)
  | case4 low high hlt middle row col node hmiddle hbefore hbefore' =>
      -- neither position comes first, so the entry in the middle is the one looked for
      obtain rfl : i = middle := by
        rcases Nat.lt_trichotomy i middle with hlt | heq | hgt
        · exact absurd (hm.before_of_lt hentry hmiddle hlt) hbefore'
        · exact heq
        · exact absurd (hm.before_of_lt hmiddle hentry hgt) hbefore
      cases hmiddle.symm.trans hentry
      rfl
  | case5 low high hge => omega

/-- What is found at a position is what is stored there. -/
theorem Sorted.get?_eq_some_iff (hm : m.Sorted) :
    m.get? r c = some d ↔ (r, c, d) ∈ m.entries := by
  constructor
  · exact fun hfound => mem_of_search hfound
  · intro hmem
    obtain ⟨i, hi⟩ := Array.mem_iff_getElem?.mp hmem
    have hlt := (Array.getElem?_eq_some_iff.mp hi).1
    exact hm.search_of_getElem? hi (Nat.zero_le i) hlt le_rfl

/-- Nothing is found at a position where nothing is stored. -/
theorem Sorted.get?_eq_none_iff (hm : m.Sorted) :
    m.get? r c = none ↔ ∀ d, (r, c, d) ∉ m.entries := by
  rw [Option.eq_none_iff_forall_ne_some]
  exact forall_congr' fun d => not_congr hm.get?_eq_some_iff

/-- The entries of a row that are not dropped.  The first one is in the given column. -/
def keptRow (drop : Handle → Bool) (row col : Nat) (ds : List Handle) :
    List (Nat × Nat × Handle) :=
  (ds.zipIdx col).filterMap fun (d, col) => if drop d then none else some (row, col, d)

/-- The entries of rows that are not dropped, from the given row on. -/
def keptRows (drop : Handle → Bool) (row : Nat) (rows : List (List Handle)) :
    List (Nat × Nat × Handle) :=
  (rows.zipIdx row).flatMap fun (ds, row) => keptRow drop row 0 ds

/-- The places in a list increase. -/
theorem pairwise_zipIdx {α : Type} (as : List α) (first : Nat) :
    (as.zipIdx first).Pairwise fun p q => p.2 < q.2 := by
  rw [← List.pairwise_map, List.zipIdx_map_snd]
  exact List.pairwise_lt_range'

section Kept

variable {drop : Handle → Bool} {row col : Nat} {ds : List Handle} {rows : List (List Handle)}

theorem keptRow_cons :
    keptRow drop row col (d :: ds) =
      if drop d then keptRow drop row (col + 1) ds
      else (row, col, d) :: keptRow drop row (col + 1) ds := by
  cases hdrop : drop d <;> simp [keptRow, hdrop]

theorem keptRows_cons :
    keptRows drop row (ds :: rows) = keptRow drop row 0 ds ++ keptRows drop (row + 1) rows := rfl

theorem mem_keptRow :
    (r, c, d) ∈ keptRow drop row col ds ↔ (d, c) ∈ ds.zipIdx col ∧ drop d = false ∧ r = row := by
  simp only [keptRow, List.mem_filterMap, Prod.exists]
  constructor
  · rintro ⟨d', c', hmem, hkept⟩
    split_ifs at hkept with hdrop
    cases hkept
    exact ⟨hmem, by simpa using hdrop, rfl⟩
  · rintro ⟨hmem, hdrop, rfl⟩
    exact ⟨d, c, hmem, by simp [hdrop]⟩

/-- What is kept of all rows are the entries not dropped, each at its row and column. -/
theorem mem_keptRows :
    (r, c, d) ∈ keptRows drop 0 rows ↔
      ∃ ds, rows[r]? = some ds ∧ ds[c]? = some d ∧ drop d = false := by
  simp only [keptRows, List.mem_flatMap, Prod.exists, mem_keptRow, List.mk_mem_zipIdx_iff_getElem?]
  constructor
  · rintro ⟨ds, row, hds, hd, hdrop, rfl⟩
    exact ⟨ds, hds, hd, hdrop⟩
  · rintro ⟨ds, hds, hd, hdrop⟩
    exact ⟨ds, r, hds, hd, hdrop, rfl⟩

/-- Nothing is kept but what is in the rows. -/
theorem mem_flatten_of_mem_keptRows (hentry : entry ∈ keptRows drop row rows) :
    entry.2.2 ∈ rows.flatten := by
  obtain ⟨⟨ds, r⟩, hds, hentry⟩ := List.mem_flatMap.mp hentry
  obtain ⟨hd, -, -⟩ := mem_keptRow.mp hentry
  exact List.mem_flatten.mpr ⟨ds, List.fst_mem_of_mem_zipIdx hds, List.fst_mem_of_mem_zipIdx hd⟩

/-- The columns of a row are in order. -/
theorem pairwise_keptRow :
    (keptRow drop row col ds).Pairwise fun e e' => before (place e) (place e') = true := by
  refine List.pairwise_filterMap.mpr ((pairwise_zipIdx ds col).imp ?_)
  rintro ⟨d, c⟩ ⟨d', c'⟩ hlt entry hentry entry' hentry'
  dsimp only at hentry hentry'
  split_ifs at hentry hentry'
  cases hentry
  cases hentry'
  exact before_eq_true_iff.mpr (.inr ⟨rfl, hlt⟩)

/-- Rows are in order, and within a row its columns. -/
theorem pairwise_keptRows :
    (keptRows drop row rows).Pairwise fun e e' => before (place e) (place e') = true := by
  refine List.pairwise_flatMap.mpr ⟨fun _ _ => pairwise_keptRow, (pairwise_zipIdx rows row).imp ?_⟩
  rintro ⟨ds, r⟩ ⟨ds', r'⟩ hlt ⟨_, c, d⟩ hentry ⟨_, c', d'⟩ hentry'
  obtain ⟨-, -, rfl⟩ := mem_keptRow.mp hentry
  obtain ⟨-, -, rfl⟩ := mem_keptRow.mp hentry'
  exact before_eq_true_iff.mpr (.inl hlt)

end Kept

/-- The values of a function at the elements of two lists that are not dropped. -/
def table {α β : Type} (drop : Handle → Bool) (rows : List α) (cols : List β)
    (entry : α → β → Handle) : SparseMatrix :=
  ⟨rows.length, cols.length, (keptRows drop 0 (rows.map fun r => cols.map (entry r))).toArray⟩

section Table

variable {α β : Type} {drop : Handle → Bool} {rows : List α} {cols : List β}
  {value : α → β → Handle}

theorem sorted_table : (table drop rows cols value).Sorted :=
  List.pairwise_map.mpr pairwise_keptRows

/-- A sparse table has the entries of the dense one that are not dropped. -/
theorem mem_table :
    (r, c, d) ∈ (table drop rows cols value).entries ↔
      (Matrix.table rows cols value).get? r c = some d ∧ drop d = false := by
  rw [table, List.mem_toArray, mem_keptRows, Matrix.get?_table_eq_some_iff]
  constructor
  · rintro ⟨ds, hds, hd, hdrop⟩
    rw [List.getElem?_map, Option.map_eq_some_iff] at hds
    obtain ⟨row, hrow, rfl⟩ := hds
    rw [List.getElem?_map, Option.map_eq_some_iff] at hd
    obtain ⟨col, hcol, rfl⟩ := hd
    exact ⟨⟨row, col, hrow, hcol, rfl⟩, hdrop⟩
  · rintro ⟨⟨row, col, hrow, hcol, rfl⟩, hdrop⟩
    exact ⟨cols.map (value row), by rw [List.getElem?_map, hrow, Option.map_some],
      by rw [List.getElem?_map, hcol, Option.map_some], hdrop⟩

end Table

end SparseMatrix

end ExprGraph
