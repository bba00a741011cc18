import Mathlib
import ExprGraph.Proofs.Matrix

/-!
# Laws of matrices

Whatever operations a matrix has gone through, it has one entry for every row and column.  All
readers agree on the entries, a write changes one of them, and transposing and choosing columns move
them as their names say.  This includes matrices without rows and matrices without columns.

The number of entries is an invariant of the operations; a matrix that has it is a table, and the
laws are laws of tables.
-/

namespace ExprGraph

namespace Matrix

variable {α : Type} {m : Matrix α}

/-- A matrix that can be made: by a constructor, or from one that has been made by a write, a choice
of columns that it has or a transposition. -/
inductive Obtained : Matrix α → Prop
  | ofArray {rows cols : Nat} {data : Array α} {m : Matrix α}
      (hm : ofArray? rows cols data = some m) : Obtained m
  | ofRows {rows : List (List α)} {m : Matrix α} (hm : ofRows? rows = some m) : Obtained m
  | filled (rows cols : Nat) (value : α) : Obtained (filled rows cols value)
  | set {m changed : Matrix α} {row col : Nat} {value : α} (hm : Obtained m)
      (hset : m.set row col value = .ok changed) : Obtained changed
  | setFlat {m : Matrix α} (place : Nat) (value : α) (hm : Obtained m) :
      Obtained (m.setFlat place value)
  | selectColumns {m chosen : Matrix α} {cols : List Nat} (hm : Obtained m)
      (hcols : ∀ c ∈ cols, c < m.cols) (hchosen : m.selectColumns cols = .ok chosen) :
      Obtained chosen
  | transpose {m flipped : Matrix α} (hm : Obtained m) (hflipped : m.transpose = .ok flipped) :
      Obtained flipped

/-- The laws of the operations, at one matrix. -/
structure Laws (m : Matrix α) : Prop where
  size : m.data.size = m.rows * m.cols
  get : ∀ r c, (m.get? r c).isSome ↔ r < m.rows ∧ c < m.cols
  entry : ∀ r c a, m.entry r c = .ok a ↔ m.get? r c = some a
  row : ∀ r, r < m.rows →
    ∃ row, m.row r = .ok row ∧ row.length = m.cols ∧ ∀ c, row[c]? = m.get? r c
  column : ∀ c, c < m.cols →
    ∃ column, m.column c = .ok column ∧ column.length = m.rows ∧ ∀ r, column[r]? = m.get? r c
  /-- There are as many rows as the matrix has, with its entries, and they put it together. -/
  rowList : ∃ rows, m.rowList = .ok rows ∧ rows.length = m.rows ∧ rows.flatten = m.toList ∧
    (∀ r c, (rows[r]?.bind fun row => row[c]?) = m.get? r c) ∧
    (0 < m.rows → ofRows? rows = some m)
  /-- Both ways of writing change one entry. -/
  set : ∀ r c a, r < m.rows → c < m.cols →
    ∃ changed, m.set r c a = .ok changed ∧ m.setFlat (r * m.cols + c) a = changed ∧
      changed.rows = m.rows ∧ changed.cols = m.cols ∧
      ∀ r' c', changed.get? r' c' = if r' = r ∧ c' = c then some a else m.get? r' c'
  /-- Transposing exchanges rows and columns, and done twice it changes nothing. -/
  transpose : ∃ flipped, m.transpose = .ok flipped ∧ flipped.rows = m.cols ∧
    flipped.cols = m.rows ∧ (∀ r c, flipped.get? c r = m.get? r c) ∧ flipped.transpose = .ok m
  /-- Choosing columns twice is choosing the chosen ones. -/
  selectColumns : ∀ p : List Nat, (∀ c ∈ p, c < m.cols) →
    ∃ chosen, m.selectColumns p = .ok chosen ∧ chosen.rows = m.rows ∧ chosen.cols = p.length ∧
      (∀ i k (hk : k < p.length), chosen.get? i k = m.get? i p[k]) ∧
      ∀ (q : List Nat) (hq : ∀ k ∈ q, k < p.length),
        ∃ again, chosen.selectColumns q = .ok again ∧
          m.selectColumns (q.pmap (fun k hk => p[k]) hq) = .ok again

theorem valid_of_ofRows? {rows : List (List α)} (hm : ofRows? rows = some m) : m.Valid := by
  simp only [ofRows?] at hm
  split at hm
  · next hlength =>
    cases hm
    rw [Valid, List.size_toArray]
    exact length_flatten_of_forall (by simpa using hlength)
  · cases hm

theorem valid_of_selectColumns {chosen : Matrix α} {cols : List Nat} (hm : m.Valid)
    (hcols : ∀ c ∈ cols, c < m.cols) (hchosen : m.selectColumns cols = .ok chosen) :
    chosen.Valid := by
  obtain ⟨rows, vars, entry, rfl⟩ := hm.exists_table
  obtain rfl := Except.ok.inj
    ((selectColumns_table (forall₂_pmap_getElem hcols)).symm.trans hchosen)
  exact valid_table

theorem valid_of_transpose {flipped : Matrix α} (hm : m.Valid)
    (hflipped : m.transpose = .ok flipped) : flipped.Valid := by
  obtain ⟨rows, cols, entry, rfl⟩ := hm.exists_table
  obtain rfl := Except.ok.inj (transpose_table.symm.trans hflipped)
  exact valid_table

/-- One entry for every row and column, after any run of operations. -/
theorem Obtained.valid (hm : Obtained m) : m.Valid := by
  induction hm with
  | ofArray hm => exact valid_of_ofArray? hm
  | ofRows hm => exact valid_of_ofRows? hm
  | filled rows cols value => exact valid_filled rows cols value
  | set _ hset ih => exact valid_set ih hset
  | setFlat place value _ ih => exact valid_setFlat ih place value
  | selectColumns _ hcols hchosen ih => exact valid_of_selectColumns ih hcols hchosen
  | transpose _ hflipped ih => exact valid_of_transpose ih hflipped

theorem entry_eq_ok_iff {r c : Nat} {a : α} : m.entry r c = .ok a ↔ m.get? r c = some a := by
  unfold entry
  cases m.get? r c with
  | none => simp
  | some b => simp

/-- A write in range changes one entry. -/
theorem get?_setFlat (hm : m.Valid) {r c : Nat} (hr : r < m.rows) (hc : c < m.cols) (a : α)
    (r' c' : Nat) :
    (m.setFlat (r * m.cols + c) a).get? r' c' =
      if r' = r ∧ c' = c then some a else m.get? r' c' := by
  have hplace : r * m.cols + c < m.data.size := by
    rw [hm]
    exact place_lt hr hc
  by_cases hin : r' < m.rows ∧ c' < m.cols
  · rw [get?, get?, setFlat, if_pos hin, if_pos hin, Array.getElem?_setIfInBounds, if_pos hplace]
    refine if_congr ⟨fun hsame => ?_, ?_⟩ rfl rfl
    · obtain ⟨hrow, hcol⟩ := place_inj hc hin.2 hsame
      exact ⟨hrow.symm, hcol.symm⟩
    · rintro ⟨rfl, rfl⟩
      rfl
  · have hne : ¬ (r' = r ∧ c' = c) := by
      rintro ⟨rfl, rfl⟩
      exact hin ⟨hr, hc⟩
    rw [get?, get?, setFlat, if_neg hin, if_neg hin, if_neg hne]

section Table

variable {β γ : Type} {rows : List β} {cols : List γ} {value : β → γ → α}

theorem isSome_get?_table {r c : Nat} :
    ((table rows cols value).get? r c).isSome ↔ r < rows.length ∧ c < cols.length := by
  rw [Option.isSome_iff_exists]
  simp only [get?_table_eq_some_iff]
  constructor
  · rintro ⟨_, x, y, hrow, hcol, -⟩
    obtain ⟨hr, -⟩ := List.getElem?_eq_some_iff.mp hrow
    obtain ⟨hc, -⟩ := List.getElem?_eq_some_iff.mp hcol
    exact ⟨hr, hc⟩
  · rintro ⟨hr, hc⟩
    exact ⟨_, _, _, List.getElem?_eq_getElem hr, List.getElem?_eq_getElem hc, rfl⟩

theorem get?_table_swap {r c : Nat} :
    (table cols rows fun y x => value x y).get? c r = (table rows cols value).get? r c := by
  refine Option.ext fun a => ?_
  simp only [get?_table_eq_some_iff]
  exact ⟨fun ⟨y, x, hcol, hrow, ha⟩ => ⟨x, y, hrow, hcol, ha⟩,
    fun ⟨x, y, hrow, hcol, ha⟩ => ⟨y, x, hcol, hrow, ha⟩⟩

/-- Columns chosen from chosen columns are columns, at the places put there by the first choice. -/
theorem selectColumns_selectColumns_table {p q : List Nat} (hp : ∀ c ∈ p, c < cols.length)
    (hq : ∀ k ∈ q, k < p.length) :
    ∃ again, (table rows (p.pmap (fun c hc => cols[c]) hp) value).selectColumns q = .ok again ∧
      (table rows cols value).selectColumns (q.pmap (fun k hk => p[k]) hq) = .ok again := by
  have hq' : ∀ k ∈ q, k < (p.pmap (fun c hc => cols[c]) hp).length := by
    simpa only [List.length_pmap] using hq
  refine ⟨_, selectColumns_table (forall₂_pmap_getElem hq'), selectColumns_table ?_⟩
  refine List.forall₂_iff_get.mpr ⟨by simp only [List.length_pmap], fun i hi _ => ?_⟩
  simp only [List.get_eq_getElem, List.getElem_pmap]
  exact List.getElem?_eq_getElem _

theorem get?_table_pmap {p : List Nat} (hp : ∀ c ∈ p, c < cols.length) (i : Nat) {k : Nat}
    (hk : k < p.length) :
    (table rows (p.pmap (fun c hc => cols[c]) hp) value).get? i k =
      (table rows cols value).get? i p[k] := by
  have hchosen : k < (p.pmap (fun c hc => cols[c]) hp).length := by rwa [List.length_pmap]
  rw [get?_table_eq, get?_table_eq, List.getElem?_eq_getElem hchosen, List.getElem_pmap,
    List.getElem?_eq_getElem (hp _ (List.getElem_mem hk))]

/-- Every table obeys the laws. -/
theorem laws_table : Laws (table rows cols value) where
  size := valid_table
  get _ _ := isSome_get?_table
  entry _ _ _ := entry_eq_ok_iff
  row r hr := by
    refine ⟨_, row_table_of_lt hr, List.length_map _, fun c => ?_⟩
    rw [get?_table_eq, List.getElem?_map, List.getElem?_eq_getElem hr, Option.bind_some]
  column c hc := by
    refine ⟨_, column_table hc, List.length_map _, fun r => ?_⟩
    rw [get?_table_eq, List.getElem?_map, List.getElem?_eq_getElem hc]
    cases rows[r]? <;> rfl
  rowList := by
    refine ⟨_, rowList_table, List.length_map _, rfl, fun r c => ?_, fun hrows => ?_⟩
    · rw [get?_table_eq, List.getElem?_map, Option.bind_map]
      exact Option.bind_congr fun x _ => List.getElem?_map
    · exact ofRows?_table (List.ne_nil_of_length_pos hrows)
  set r c a hr hc :=
    ⟨_, if_pos ⟨hr, hc⟩, rfl, rfl, rfl, get?_setFlat valid_table hr hc a⟩
  transpose := ⟨_, transpose_table, rfl, rfl, fun _ _ => get?_table_swap, transpose_table⟩
  selectColumns p hp :=
    ⟨_, selectColumns_table (forall₂_pmap_getElem hp), rfl, List.length_pmap,
      fun i _ hk => get?_table_pmap hp i hk,
      fun _ hq => selectColumns_selectColumns_table hp hq⟩

end Table

/-- Every matrix that can be made obeys the laws: it is a table. -/
theorem Obtained.laws (hm : Obtained m) : Laws m := by
  obtain ⟨rows, cols, value, rfl⟩ := hm.valid.exists_table
  exact laws_table

/-- Two rows, of which the last two columns are taken from right to left and turned on their
side. -/
theorem laws_turned :
    Obtained (⟨2, 2, #[3, 6, 2, 7]⟩ : Matrix Nat) ∧ Laws (⟨2, 2, #[3, 6, 2, 7]⟩ : Matrix Nat) := by
  have hrows : Obtained (⟨2, 3, #[1, 2, 3, 4, 5, 6]⟩ : Matrix Nat) :=
    .ofRows (show ofRows? [[1, 2, 3], [4, 5, 6]] = some _ from rfl)
  have hwritten : Obtained (⟨2, 3, #[1, 2, 3, 4, 7, 6]⟩ : Matrix Nat) :=
    .set hrows (show Matrix.set _ 1 1 7 = .ok _ from rfl)
  have hchosen : Obtained (⟨2, 2, #[3, 2, 6, 7]⟩ : Matrix Nat) :=
    .selectColumns hwritten (show ∀ c ∈ [2, 1], c < 3 by decide) rfl
  have hturned : Obtained (⟨2, 2, #[3, 6, 2, 7]⟩ : Matrix Nat) := .transpose hchosen rfl
  exact ⟨hturned, hturned.laws⟩

/-- Without columns a matrix still has its rows. -/
example : (filled 3 0 7).rowList = .ok [[], [], []] := rfl

end Matrix

end ExprGraph
