import Mathlib
import ExprGraph.Program.Batch
import ExprGraph.Proofs.Outcome

/-!
# Columns

Whatever writes to a column, a value at one point, a group of four or a whole chunk, puts a part at
the points from some start on and leaves all others alone.  So one description serves all of them.
-/

namespace ExprGraph

variable {α β : Type}

namespace Column

variable {column part : Column α} {start : Nat}

theorem size_patch (hroom : start + part.size ≤ column.size) :
    (column.patch start part).size = column.size := by
  simp only [patch, Array.size_append, Array.size_extract]
  omega

/-- A patched column has the part at its points, and its own values elsewhere. -/
theorem getElem?_patch (hroom : start + part.size ≤ column.size) (point : Nat) :
    (column.patch start part)[point]? =
      if start ≤ point ∧ point < start + part.size then part[point - start]?
      else column[point]? := by
  have hstart : (column.extract 0 start).size = start := by
    rw [Array.size_extract]
    omega
  rw [patch, Array.getElem?_append, Array.getElem?_append, Array.size_append, hstart]
  by_cases hbefore : point < start
  · rw [if_pos (by omega), if_pos hbefore, if_neg (by omega), Array.getElem?_extract,
      if_pos (by omega), Nat.zero_add]
  · by_cases hinside : point < start + part.size
    · rw [if_pos hinside, if_neg hbefore, if_pos (by omega)]
    · rw [if_neg hinside, if_neg (by omega), Array.getElem?_extract]
      by_cases hend : point < column.size
      · rw [if_pos (by omega)]
        congr 1
        omega
      · rw [if_neg (by omega), Array.getElem?_eq_none (by omega)]

theorem copyPart_eq_ok (hroom : start + part.size ≤ column.size) :
    copyPart start part column = .ok () (column.patch start part) :=
  if_pos hroom

/-- A single value is a part of one point. -/
theorem put_eq_ok {point : Nat} (hroom : point < column.size) (v : α) :
    put point v column = .ok () (column.patch point #[v]) := by
  have hsame : column.setIfInBounds point v = column.patch point #[v] := by
    apply Array.ext_getElem?
    intro other
    rw [getElem?_patch (by simpa using hroom), Array.getElem?_setIfInBounds]
    by_cases hself : point = other
    · subst hself
      simp [hroom]
    · rw [if_neg hself, if_neg (by simp; omega)]
  rw [put, if_pos hroom, hsame]

/-- Two parts that lie side by side are one part. -/
theorem patch_patch {next : Column α} (hroom : start + part.size + next.size ≤ column.size) :
    (column.patch start part).patch (start + part.size) next =
      column.patch start (part ++ next) := by
  have hfirst : start + part.size ≤ column.size := by omega
  have hboth : start + (part ++ next).size ≤ column.size := by
    rw [Array.size_append]
    omega
  apply Array.ext_getElem?
  intro point
  rw [getElem?_patch (by rw [size_patch hfirst]; exact hroom), getElem?_patch hfirst,
    getElem?_patch hboth, Array.size_append, Array.getElem?_append]
  by_cases hpart : start ≤ point ∧ point < start + part.size
  · rw [if_neg (by omega), if_pos hpart, if_pos (by omega), if_pos (by omega)]
  · by_cases hnext : start + part.size ≤ point ∧ point < start + part.size + next.size
    · rw [if_pos hnext, if_pos (by omega), if_neg (by omega), Nat.sub_add_eq]
    · rw [if_neg hnext, if_neg hpart, if_neg (by omega)]

theorem put_push {base : Nat} (part : Column α) (hroom : base + part.size < column.size) (v : α) :
    put (base + part.size) v (column.patch base part) =
      .ok () (column.patch base (part.push v)) := by
  rw [put_eq_ok (by rwa [size_patch hroom.le]), patch_patch (by simpa using hroom),
    Array.append_singleton]

/-- A group of values is a part of four points. -/
theorem putGroup_eq_ok {base : Nat} (hroom : base + 4 ≤ column.size) (v : Lanes α) :
    putGroup base v column = .ok () (column.patch base v.toArray) := by
  have hstart : put base v[0] column = .ok () (column.patch base #[v[0]]) :=
    put_eq_ok (by omega) v[0]
  have hlanes : #v[v[0], v[1], v[2], v[3]] = v := by
    ext lane hlane
    interval_cases lane <;> rfl
  rw [putGroup]
  refine (bind_of_ok hstart).trans ?_
  refine (bind_of_ok (put_push #[v[0]] (by simp; omega) v[1])).trans ?_
  refine (bind_of_ok (put_push #[v[0], v[1]] (by simp; omega) v[2])).trans ?_
  refine (put_push #[v[0], v[1], v[2]] (by simp; omega) v[3]).trans ?_
  exact congrArg (fun v : Lanes α => EStateM.Result.ok () (column.patch base v.toArray)) hlanes

end Column

namespace BatchM

/-- What stands at a point of some columns; nothing where a column has ended. -/
def entriesAt (columns : List (Column α)) (point : Nat) : List (Option α) :=
  columns.map fun column => column[point]?

/-- Every column with the part beside it at the points from `start` on. -/
def patchAll (start : Nat) (parts outputs : List (Column α)) : List (Column α) :=
  List.zipWith (fun part column => column.patch start part) parts outputs

/-- Overwriting puts a part into every column, if each single change does. -/
theorem overwrite_eq_ok {change : β → EStateM Fault (Column α) Unit} {start : Nat}
    {part : β → Column α} {values : List β} {outputs : List (Column α)}
    (hlength : values.length = outputs.length)
    (hchange : ∀ v ∈ values, ∀ column ∈ outputs,
      change v column = .ok () (column.patch start (part v))) :
    overwrite change values outputs = .ok () (patchAll start (values.map part) outputs) := by
  induction values generalizing outputs with
  | nil =>
      obtain rfl : outputs = [] := List.length_eq_zero_iff.mp hlength.symm
      rfl
  | cons v values ih =>
      obtain ⟨column, outputs, rfl⟩ := List.exists_cons_of_length_eq_add_one hlength.symm
      have hrest := ih (Nat.succ_injective hlength) fun v' hv' column' hcolumn' =>
        hchange v' (List.mem_cons_of_mem v hv') column' (List.mem_cons_of_mem column hcolumn')
      rw [overwrite, hchange v List.mem_cons_self column List.mem_cons_self]
      simp only [hrest]
      rfl

variable {start size : Nat} {parts outputs : List (Column α)}

section Patch

variable (hlength : parts.length = outputs.length) (hparts : ∀ part ∈ parts, part.size = size)
  (hroom : ∀ column ∈ outputs, start + size ≤ column.size)

include hlength hparts hroom

theorem map_size_patchAll :
    (patchAll start parts outputs).map Array.size = outputs.map Array.size := by
  induction parts generalizing outputs with
  | nil =>
      obtain rfl : outputs = [] := List.length_eq_zero_iff.mp hlength.symm
      rfl
  | cons part parts ih =>
      obtain ⟨column, outputs, rfl⟩ := List.exists_cons_of_length_eq_add_one hlength.symm
      obtain ⟨hpart, hparts⟩ := List.forall_mem_cons.mp hparts
      obtain ⟨hcolumn, hroom⟩ := List.forall_mem_cons.mp hroom
      have hrest := ih (Nat.succ_injective hlength) hparts hroom
      have hsize : (column.patch start part).size = column.size :=
        Column.size_patch (hpart ▸ hcolumn)
      exact congrArg₂ List.cons hsize hrest

/-- At the points of the parts stand the entries of the parts, elsewhere what was there before. -/
theorem entriesAt_patchAll (point : Nat) :
    entriesAt (patchAll start parts outputs) point =
      if start ≤ point ∧ point < start + size then entriesAt parts (point - start)
      else entriesAt outputs point := by
  induction parts generalizing outputs with
  | nil =>
      obtain rfl : outputs = [] := List.length_eq_zero_iff.mp hlength.symm
      exact (ite_self _).symm
  | cons part parts ih =>
      obtain ⟨column, outputs, rfl⟩ := List.exists_cons_of_length_eq_add_one hlength.symm
      obtain ⟨rfl, hparts⟩ := List.forall_mem_cons.mp hparts
      obtain ⟨hcolumn, hroom⟩ := List.forall_mem_cons.mp hroom
      have hrest := ih (Nat.succ_injective hlength) hparts hroom
      have hfirst := Column.getElem?_patch hcolumn point
      refine (congrArg₂ List.cons hfirst hrest).trans ?_
      split_ifs <;> rfl

end Patch

end BatchM

end ExprGraph
