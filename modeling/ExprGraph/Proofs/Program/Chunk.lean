import Mathlib
import ExprGraph.Program.Evaluator
import ExprGraph.Proofs.Program.Batch

/-!
# Chunks

A large batch is run chunk by chunk.  Chunks start at multiples of four points, so a point is in a
group of its chunk exactly when it is in a group of the whole batch, and the chunks give what one
run over all points would give.
-/

namespace ExprGraph

open BatchM

/-- As many nodes as the shape has entries. -/
def Outputs.Valid (nodes : Outputs) : Prop := nodes.nodes.length = nodes.shape.size

namespace Outputs

theorem valid_ofList (nodes : List Handle) : (ofList nodes).Valid := rfl

theorem valid_ofHandle (node : Handle) : (ofHandle node).Valid := rfl

theorem valid_ofMatrix {m : Matrix Handle} (hm : m.Valid) : (ofMatrix m).Valid := by
  rw [Valid, ofMatrix, Matrix.toList, Array.length_toList]
  exact hm

end Outputs

namespace Column

variable {α : Type} {column : Column α} {start stop : Nat}

theorem exists_slice (hstart : start ≤ stop) (hstop : stop ≤ column.size) :
    ∃ part, column.slice start stop = .ok part ∧ part.size = stop - start ∧
      ∀ i < stop - start, part[i]? = column[start + i]? := by
  refine ⟨column.extract start stop, if_pos ⟨hstart, hstop⟩, ?_, fun i hi => ?_⟩
  · rw [Array.size_extract, Nat.min_eq_left hstop]
  · rw [Array.getElem?_extract, if_pos (by rwa [Nat.min_eq_left hstop])]

end Column

namespace Program

/-- A chunk of a batch, by its first point, holds another point. -/
structure Chunked (points start point : Nat) : Prop where
  mem : start ∈ chunkStarts points
  le : start ≤ point
  lt : point < min (start + chunkSize) points

theorem mem_chunkStarts {points start : Nat} :
    start ∈ chunkStarts points ↔ start < points ∧ chunkSize ∣ start := by
  simp only [chunkStarts, List.mem_map, List.mem_range]
  constructor
  · rintro ⟨chunk, hchunk, rfl⟩
    refine ⟨?_, Dvd.intro chunk rfl⟩
    unfold chunkSize at *
    omega
  · rintro ⟨hstart, chunk, rfl⟩
    refine ⟨chunk, ?_, rfl⟩
    unfold chunkSize at *
    omega

theorem nodup_chunkStarts (points : Nat) : (chunkStarts points).Nodup :=
  List.nodup_range.map fun a b hab => Nat.eq_of_mul_eq_mul_left (by decide) hab

/-- Every point of a batch lies in one chunk. -/
theorem exists_chunked {points point : Nat} (hpoint : point < points) :
    Chunked points (chunkSize * (point / chunkSize)) point := by
  refine ⟨mem_chunkStarts.mpr ⟨?_, Dvd.intro _ rfl⟩, ?_, ?_⟩ <;> unfold chunkSize <;> omega

theorem Chunked.start_eq {points start point : Nat} (hchunked : Chunked points start point) :
    start = chunkSize * (point / chunkSize) := by
  obtain ⟨hmem, hle, hlt⟩ := hchunked
  obtain ⟨-, chunk, rfl⟩ := mem_chunkStarts.mp hmem
  unfold chunkSize at *
  omega

/-- A point is in a group of its chunk exactly when it is in a group of the batch. -/
theorem Chunked.inGroup_iff {points start point : Nat} (hchunked : Chunked points start point) :
    InGroup (min (start + chunkSize) points - start) (point - start) ↔ InGroup points point := by
  obtain ⟨hmem, hle, hlt⟩ := hchunked
  obtain ⟨-, chunk, rfl⟩ := mem_chunkStarts.mp hmem
  unfold InGroup
  unfold chunkSize at *
  omega

section Chunks

variable {α : Type} {p : Program} {interp : Interpretation α} {columns outputs : List (Column α)}
  {points : Nat}

theorem length_blank (hshape : p.shape.size = p.outputs.length) :
    (p.blank interp points).length = p.outputs.length := by
  rw [blank, List.length_replicate, hshape]

theorem size_of_mem_blank {column : Column α} (hcolumn : column ∈ p.blank interp points) :
    column.size = points := by
  rw [List.eq_of_mem_replicate hcolumn, Array.size_replicate]

/-- With inputs, the columns themselves tell how many points a batch has. -/
theorem pointCount_eq (hcolumns : columns ≠ []) (hsize : ∀ column ∈ columns, column.size = points)
    (outputs : List (Column α)) : pointCount columns outputs = points := by
  obtain ⟨first, rest, rfl⟩ := List.exists_cons_of_ne_nil hcolumns
  exact hsize first List.mem_cons_self

theorem fits_blank (interp : Interpretation α) (hshape : p.shape.size = p.outputs.length)
    (hinputs : columns.length = p.inputCount) (hcolumns : columns ≠ [])
    (hsize : ∀ column ∈ columns, column.size = points) :
    p.Fits columns (p.blank interp points) where
  input_count := hinputs
  output_count := length_blank hshape
  points := by
    rw [pointCount_eq hcolumns hsize]
    exact hsize
  room := by
    rw [pointCount_eq hcolumns hsize]
    exact fun column hcolumn => (size_of_mem_blank hcolumn).ge

section Natural

variable (hp : p.Natural) (hshape : p.shape.size = p.outputs.length)
  (hinputs : columns.length = p.inputCount) (hcolumns : columns ≠ [])
  (hsize : ∀ column ∈ columns, column.size = points)

include hp hshape hinputs hcolumns hsize

/-- A chunk gives the results of the runs that the whole batch does at its points. -/
theorem exists_runChunk (interp : Interpretation α) {start : Nat}
    (hstart : start ∈ chunkStarts points) :
    ∃ computed, p.runChunk interp columns points start = .ok computed ∧
      computed.length = p.outputs.length ∧
      (∀ part ∈ computed, part.size = min (start + chunkSize) points - start) ∧
      ∀ i < min (start + chunkSize) points - start,
        p.RunsAt (interp.atPoint points (start + i)) columns (start + i)
          (entriesAt computed i) := by
  have hstop : start ≤ min (start + chunkSize) points := by
    have hlt : start < points := (mem_chunkStarts.mp hstart).1
    omega
  have hends : ∀ column ∈ columns, min (start + chunkSize) points ≤ column.size := by
    intro column hcolumn
    rw [hsize column hcolumn]
    exact Nat.min_le_right _ _
  obtain ⟨part, hslices, hpart⟩ := exists_mapM_eq_ok fun column hcolumn =>
    Column.exists_slice hstop (hends column hcolumn)
  have hpartSize : ∀ column ∈ part, column.size = min (start + chunkSize) points - start := by
    intro column hcolumn
    have hsizes := map_eq_map_of_forall₂ hpart fun _ _ h => h.1
    have hmem := hsizes ▸ List.mem_map_of_mem hcolumn
    exact (List.mem_map.mp hmem).choose_spec.2.symm
  have hpartNe : part ≠ [] := by
    rw [← List.length_pos_iff_ne_nil, ← hpart.length_eq]
    exact List.length_pos_iff_ne_nil.mpr hcolumns
  obtain ⟨computed, hrun, hfilled⟩ := hp.runBatch_fills
    (fits_blank interp hshape (hpart.length_eq.symm.trans hinputs) hpartNe hpartSize) interp
  rw [pointCount_eq hpartNe hpartSize] at hfilled
  refine ⟨computed, ?_, hfilled.length_eq.trans (length_blank hshape), ?_, fun i hi => ?_⟩
  · rw [runChunk, hslices]
    change columnsFrom _ _ = _
    rw [columnsFrom, hrun]
  · intro column hcolumn
    have hmem := hfilled.sizes ▸ List.mem_map_of_mem hcolumn
    obtain ⟨fresh, hfresh, hsame⟩ := List.mem_map.mp hmem
    exact hsame ▸ size_of_mem_blank hfresh
  · obtain ⟨inputs, values, hinputs', hvalues, hentries⟩ := hfilled.run hi
    have hchunked : Chunked points start (start + i) :=
      ⟨hstart, Nat.le_add_right start i, by omega⟩
    have hgroup := hchunked.inGroup_iff
    rw [Nat.add_sub_cancel_left] at hgroup
    have hmeaning : interp.atPoint points (start + i) =
        interp.atPoint (min (start + chunkSize) points - start) i := if_congr hgroup.symm rfl rfl
    refine ⟨inputs, values, ?_, hmeaning ▸ hvalues, hentries⟩
    rw [hinputs']
    exact map_eq_map_of_forall₂ hpart fun _ _ h => h.2 i hi

/-- Running the chunks and copying their outputs into place takes the columns on chunk by chunk. -/
theorem exists_runChunks (interp : Interpretation α) {before : List (Column α)}
    (hbefore : before.length = p.outputs.length) (hroom : ∀ column ∈ before, points ≤ column.size)
    (first count : Nat)
    (hstarts : ∀ chunk, first ≤ chunk → chunk < first + count →
      chunkSize * chunk ∈ chunkStarts points) :
    ∃ chunks, (((List.range' first count).map fun chunk => chunkSize * chunk).mapM fun start => do
        return (start, ← p.runChunk interp columns points start)) = .ok chunks ∧
      ∀ outputs, p.Filled (interp.atPoint points) columns (min (chunkSize * first) points) before
          outputs →
        ∃ after, (chunks.forM fun (start, computed) => overwrite (Column.copyPart start) computed)
            outputs = .ok () after ∧
          p.Filled (interp.atPoint points) columns (min (chunkSize * (first + count)) points) before
            after := by
  induction count generalizing first with
  | zero => exact ⟨[], rfl, fun outputs hfilled => ⟨outputs, rfl, hfilled⟩⟩
  | succ count ih =>
      have hstart := hstarts first le_rfl (by omega)
      have hlt : chunkSize * first < points := (mem_chunkStarts.mp hstart).1
      obtain ⟨computed, hchunk, hlength, hparts, hruns⟩ :=
        exists_runChunk hp hshape hinputs hcolumns hsize interp hstart
      obtain ⟨chunks, hchunks, hfills⟩ := ih (first + 1) fun chunk hfirst hlast =>
        hstarts chunk (by omega) (by omega)
      refine ⟨(chunkSize * first, computed) :: chunks, ?_, fun outputs hfilled => ?_⟩
      · rw [List.range'_succ, List.map_cons, List.mapM_cons, hchunk, hchunks]
        rfl
      · have hspace : ∀ column ∈ before, chunkSize * first +
            (min (chunkSize * first + chunkSize) points - chunkSize * first) ≤ column.size := by
          intro column hcolumn
          have hcolumn := hroom column hcolumn
          omega
        have hdone : chunkSize * first +
            (min (chunkSize * first + chunkSize) points - chunkSize * first) =
              min (chunkSize * (first + 1)) points := by
          rw [Nat.mul_succ]
          omega
        rw [Nat.min_eq_left hlt.le] at hfilled
        obtain ⟨outputs', hwrite, hnext⟩ := hfilled.overwrite hbefore hspace hlength hparts
          (fun part hpart column hspace => Column.copyPart_eq_ok (hparts part hpart ▸ hspace))
          (by simpa using hruns)
        rw [hdone] at hnext
        obtain ⟨after, hrest, hafter⟩ := hfills outputs' hnext
        refine ⟨after, (bind_of_ok hwrite).trans hrest, ?_⟩
        rwa [Nat.add_right_comm, Nat.add_assoc] at hafter

end Natural

/-- A batch never faults. -/
theorem Natural.columnsFrom_runBatch_ne_fault (hp : p.Natural) (interp : Interpretation α)
    (columns outputs : List (Column α)) (fault : Fault) :
    columnsFrom outputs (p.runBatch interp columns) ≠ .error (.fault fault) := by
  by_cases hfits : p.Fits columns outputs
  · obtain ⟨after, hrun, -⟩ := hp.runBatch_fills hfits interp
    rw [columnsFrom, hrun]
    exact nofun
  · obtain ⟨expected, got, hrun⟩ := runBatch_of_not_fits hfits interp
    rw [columnsFrom, hrun]
    exact nofun

/-- Running a batch chunk by chunk gives what one run over all points does. -/
theorem Natural.runChunkedBatch_eq (hp : p.Natural) (hshape : p.shape.size = p.outputs.length)
    (interp : Interpretation α) (columns : List (Column α)) :
    p.runChunkedBatch interp columns =
      columnsFrom (p.blank interp ((columns.head?.map Array.size).getD 1))
        (p.runBatch interp columns) := by
  rw [runChunkedBatch]
  generalize hpoints : (columns.head?.map Array.size).getD 1 = points
  dsimp only
  obtain ⟨hfits, hcheck⟩ | ⟨-, expected, got, hcheck⟩ :=
    p.checkBatch_cases columns (p.blank interp points)
  · rw [hcheck]
    change (if _ then _ else _) = _
    split_ifs with hsmall
    · rfl
    · -- a large batch has inputs, since without them there is one point
      have hcolumns : columns ≠ [] := by
        rintro rfl
        obtain rfl : 1 = points := hpoints
        exact hsmall (by decide)
      have hcount : pointCount columns (p.blank interp points) = points := by
        obtain ⟨first, rest, rfl⟩ := List.exists_cons_of_ne_nil hcolumns
        exact hpoints
      have hsize : ∀ column ∈ columns, column.size = points := hcount ▸ hfits.points
      have hall : min (chunkSize * (0 + (points + chunkSize - 1) / chunkSize)) points = points := by
        unfold chunkSize
        omega
      obtain ⟨chunks, hchunks, hcopied⟩ := exists_runChunks hp hshape hfits.input_count hcolumns
        hsize interp (length_blank hshape) (fun column hcolumn => (size_of_mem_blank hcolumn).ge) 0
        ((points + chunkSize - 1) / chunkSize) fun chunk _ hchunk =>
          List.mem_map_of_mem (List.mem_range.mpr (by omega))
      obtain ⟨after, hrun, hafter⟩ := hcopied (p.blank interp points) (by
        rw [Nat.mul_zero, Nat.zero_min]
        exact .start p _ columns _)
      obtain ⟨after', hrun', hafter'⟩ := hp.runBatch_fills hfits interp
      rw [hall] at hafter
      rw [hcount] at hafter'
      obtain rfl := hafter.unique hafter'
      rw [chunkStarts, List.range_eq_range', hchunks, columnsFrom, hrun']
      change columnsFrom _ _ = _
      rw [columnsFrom, hrun]
  · rw [hcheck, columnsFrom, runBatch_of_check_error hcheck]
    rfl

end Chunks

end Program

theorem Graph.shape_of_compile {g : Graph} {nodes : Outputs} {inputs : List Handle} {reuse : Bool}
    {p : Program} (hcompile : g.compile nodes inputs reuse = .ok p) : p.shape = nodes.shape := by
  unfold compile at hcompile
  obtain ⟨_, -, hcompile⟩ := exists_of_bind_eq_ok hcompile
  obtain ⟨_, -, hcompile⟩ := exists_of_bind_eq_ok hcompile
  obtain ⟨_, -, hcompile⟩ := exists_of_bind_eq_ok hcompile
  obtain ⟨_, -, hcompile⟩ := exists_of_bind_eq_ok hcompile
  obtain ⟨_, -, hpure⟩ := exists_of_bind_eq_ok hcompile
  obtain rfl := Except.ok.inj hpure
  rfl

/-- A program has one output slot for every entry of its shape. -/
theorem Graph.size_shape_of_compile {g : Graph} {nodes : Outputs} (hnodes : nodes.Valid)
    {inputs : List Handle} {reuse : Bool} {p : Program}
    (hcompile : g.compile nodes inputs reuse = .ok p) : p.shape.size = p.outputs.length := by
  obtain ⟨_, _, _, e, -, -, -, -, hslots, -⟩ := compile_eq_ok hcompile
  rw [shape_of_compile hcompile, ← (Emission.slots_eq_ok_iff.mp hslots).length_eq, hnodes]

theorem Graph.compile_of_evaluator {g : Graph} {input : InputKind} {output : OutputKind}
    {nodes : Outputs} {inputs : List Handle} {reuse : Bool} {ev : Evaluator}
    (hev : g.evaluator input output nodes inputs reuse = .ok ev) :
    g.compile nodes inputs reuse = .ok ev.program := by
  unfold evaluator at hev
  obtain ⟨_, -, hev⟩ := exists_of_bind_eq_ok hev
  obtain ⟨p, hcompile, hpure⟩ := exists_of_bind_eq_ok hev
  obtain rfl := Except.ok.inj hpure
  exact hcompile

theorem Graph.output_of_evaluator {g : Graph} {input : InputKind} {output : OutputKind}
    {nodes : Outputs} {inputs : List Handle} {reuse : Bool} {ev : Evaluator}
    (hev : g.evaluator input output nodes inputs reuse = .ok ev) : ev.output = output := by
  unfold evaluator at hev
  obtain ⟨_, -, hev⟩ := exists_of_bind_eq_ok hev
  obtain ⟨p, -, hpure⟩ := exists_of_bind_eq_ok hev
  obtain rfl := Except.ok.inj hpure
  rfl

/-- The contract of chunked evaluation.  Of columns of any lengths it makes what evaluation of the
batch as a whole does, the same columns or the same error.  Every point is in just one of the chunks
that a large batch is cut into, which holds it in one of its groups if the batch does. -/
theorem Session.Reachable.evaluateChunked_eq_batch {s : Session} (hs : s.Reachable) {graph : Nat}
    {g : Graph} (hg : s.graph? graph = some g) {input : InputKind} {output : OutputKind}
    {nodes : Outputs} (hnodes : nodes.Valid) {inputs : List Handle} {reuse : Bool} {ev : Evaluator}
    (hev : g.evaluator input output nodes inputs reuse = .ok ev) (columns : List (Column Float))
    {points : Nat} (hpoints : points = (columns.head?.map Array.size).getD 1) :
    ev.evaluateChunked columns = ev.evaluateBatch columns
      (List.replicate ev.program.outputs.length (Array.replicate points 0.0)) ∧
    (∀ fault, ev.evaluateChunked columns ≠ .error (.fault fault)) ∧
    (Program.chunkStarts points).Nodup ∧
    ∀ point < points, ∃ start, Program.Chunked points start point ∧
      (∀ other, Program.Chunked points other point → other = start) ∧
      (InGroup (min (start + Program.chunkSize) points - start) (point - start) ↔
        InGroup points point) := by
  have hcompile := Graph.compile_of_evaluator hev
  have hp := (hs.wellFormed.graph hg).natural_of_compile hcompile
  have hshape := Graph.size_shape_of_compile hnodes hcompile
  have hsame : ev.evaluateChunked columns = ev.evaluateBatch columns
      (List.replicate ev.program.outputs.length (Array.replicate points 0.0)) := by
    rw [Evaluator.evaluateChunked, hp.runChunkedBatch_eq hshape, ← hpoints, ← hshape]
    rfl
  refine ⟨hsame, ?_, Program.nodup_chunkStarts points, fun point hpoint => ?_⟩
  · rw [hsame]
    exact hp.columnsFrom_runBatch_ne_fault (.ofScalar Float) columns _
  · have hchunked := Program.exists_chunked hpoint
    exact ⟨_, hchunked, fun other hother => hother.start_eq, hchunked.inGroup_iff⟩

/-- A batch of three hundred points is cut into two chunks. -/
theorem evaluateChunked_eq_batch_square :
    Session.square.Reachable ∧ Session.square.graph? 0 = some Session.squareGraph ∧
    (Outputs.ofList [⟨1, 0, 1⟩]).Valid ∧
    Session.squareGraph.evaluator .open .flat (.ofList [⟨1, 0, 1⟩]) [⟨0, 0, 1⟩] true =
      .ok ⟨⟨[.input 0 0, .binary .mul 0 0 0], [0], 1, 1, .vector 1⟩, .flat⟩ ∧
    Evaluator.evaluateChunked ⟨⟨[.input 0 0, .binary .mul 0 0 0], [0], 1, 1, .vector 1⟩, .flat⟩
        [Array.replicate 300 2.0] =
      Evaluator.evaluateBatch ⟨⟨[.input 0 0, .binary .mul 0 0 0], [0], 1, 1, .vector 1⟩, .flat⟩
        [Array.replicate 300 2.0] [Array.replicate 300 0.0] ∧
    Program.chunkStarts 300 = [0, 256] := by
  have hvalid : (Outputs.ofList [⟨1, 0, 1⟩]).Valid := Outputs.valid_ofList _
  have hev : Session.squareGraph.evaluator .open .flat (.ofList [⟨1, 0, 1⟩]) [⟨0, 0, 1⟩] true =
      .ok ⟨⟨[.input 0 0, .binary .mul 0 0 0], [0], 1, 1, .vector 1⟩, .flat⟩ := by
    rw [Graph.evaluator, compile_square]
    rfl
  refine ⟨Session.reachable_square, Session.graph?_square, hvalid, hev, ?_, by decide⟩
  exact (Session.reachable_square.evaluateChunked_eq_batch Session.graph?_square hvalid hev
    [Array.replicate 300 2.0] (by simp)).1

end ExprGraph
