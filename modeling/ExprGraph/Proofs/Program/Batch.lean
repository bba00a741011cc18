import Mathlib
import ExprGraph.Proofs.Program.Column
import ExprGraph.Proofs.Program.Naturality

/-!
# Batches are pointwise

A batch does at every point what a run at this point alone does.  Both loops, the one over groups
and the one over single points, keep this of the points they have passed; what is said of the
output columns while a loop is at work is the same for both.
-/

namespace ExprGraph

open BatchM

/-- Work on all elements of a list succeeds when the work on each of them does. -/
theorem exists_mapM_eq_ok {ε β γ : Type} {f : β → Except ε γ} {R : β → γ → Prop} {bs : List β}
    (hf : ∀ b ∈ bs, ∃ c, f b = .ok c ∧ R b c) :
    ∃ cs, bs.mapM f = .ok cs ∧ List.Forall₂ R bs cs := by
  induction bs with
  | nil => exact ⟨[], rfl, .nil⟩
  | cons b rest ih =>
      obtain ⟨hb, hrest⟩ := List.forall_mem_cons.mp hf
      obtain ⟨c, hc, hR⟩ := hb
      obtain ⟨cs, hcs, hRs⟩ := ih hrest
      refine ⟨c :: cs, ?_, .cons hR hRs⟩
      rw [List.mapM_cons, hc, hcs]
      rfl

namespace BatchM

variable {α β : Type}

theorem compute_eq_ok {work : Except Fault β} {b : β} (hwork : work = .ok b)
    (outputs : List (Column α)) : compute work outputs = .ok b outputs := by
  subst hwork
  rfl

end BatchM

namespace Column

variable {α : Type} {column : Column α}

theorem at?_eq_ok {point : Nat} (hpoint : point < column.size) :
    column.at? point = .ok column[point] := by
  rw [at?, Array.getElem?_eq_getElem hpoint]

theorem exists_at? {point : Nat} (hpoint : point < column.size) :
    ∃ v, column.at? point = .ok v ∧ some v = column[point]? :=
  ⟨column[point], at?_eq_ok hpoint, (Array.getElem?_eq_getElem hpoint).symm⟩

/-- A group holds the values at four points. -/
theorem group_eq_ok {base : Nat} (hpoints : base + 4 ≤ column.size) :
    ∃ v, column.group base = .ok v ∧
      ∀ lane (_ : lane < 4), some v[lane] = column[base + lane]? := by
  refine ⟨#v[column[base], column[base + 1], column[base + 2], column[base + 3]], ?_, ?_⟩
  · rw [group, at?_eq_ok (by omega), at?_eq_ok (by omega), at?_eq_ok (by omega),
      at?_eq_ok (by omega)]
    rfl
  · intro lane hlane
    rw [Array.getElem?_eq_getElem (by omega)]
    interval_cases lane <;> rfl

end Column

/-- A point of a batch lies in one of its full groups of four. -/
abbrev InGroup (points point : Nat) : Prop := point < 4 * (points / 4)

/-- The meaning of literals and operators at a point of a batch: in a group, negation subtracts from
zero. -/
def Interpretation.atPoint {α : Type} (interp : Interpretation α) (points point : Nat) :
    Interpretation α :=
  if InGroup points point then interp.negatingFromZero else interp

namespace Program

variable {α : Type} {p : Program} {interp : Interpretation α}
  {columns before outputs parts : List (Column α)} {meaning : Nat → Interpretation α}

/-- The values are those of a run at a point of some columns. -/
def RunsAt (p : Program) (interp : Interpretation α) (columns : List (Column α)) (point : Nat)
    (results : List (Option α)) : Prop :=
  ∃ inputs values : List α, inputs.map some = entriesAt columns point ∧
    p.run interp inputs.toArray = .ok values ∧ results = values.map some

theorem RunsAt.unique {point : Nat} {results results' : List (Option α)}
    (hruns : p.RunsAt interp columns point results)
    (hruns' : p.RunsAt interp columns point results') : results = results' := by
  obtain ⟨inputs, values, hinputs, hrun, rfl⟩ := hruns
  obtain ⟨inputs', values', hinputs', hrun', rfl⟩ := hruns'
  obtain rfl := List.map_injective_iff.mpr (Option.some_injective α) (hinputs.trans hinputs'.symm)
  rw [Except.ok.inj (hrun.symm.trans hrun')]

/-- The output columns hold the results of the runs at the first points; from there on, and in
length, they are as they were before. -/
structure Filled (p : Program) (meaning : Nat → Interpretation α) (columns : List (Column α))
    (done : Nat) (before after : List (Column α)) : Prop where
  sizes : after.map Array.size = before.map Array.size
  run {point : Nat} : point < done →
    p.RunsAt (meaning point) columns point (entriesAt after point)
  rest {point : Nat} : done ≤ point → entriesAt after point = entriesAt before point

namespace Filled

theorem start (p : Program) (meaning : Nat → Interpretation α) (columns before : List (Column α)) :
    p.Filled meaning columns 0 before before :=
  ⟨rfl, fun hpoint => absurd hpoint (Nat.not_lt_zero _), fun _ => rfl⟩

variable {done size : Nat}

theorem length_eq (hfilled : p.Filled meaning columns done before outputs) :
    outputs.length = before.length := by
  simpa using congrArg List.length hfilled.sizes

theorem room (hfilled : p.Filled meaning columns done before outputs) {points : Nat}
    (hroom : ∀ column ∈ before, points ≤ column.size) :
    ∀ column ∈ outputs, points ≤ column.size := by
  intro column hcolumn
  have hsize : column.size ∈ before.map Array.size :=
    hfilled.sizes ▸ List.mem_map_of_mem hcolumn
  obtain ⟨column', hcolumn', hsame⟩ := List.mem_map.mp hsize
  exact hsame ▸ hroom column' hcolumn'

/-- Writing parts with the results at the next points takes the columns on to the points after
these. -/
theorem overwrite {β : Type} {change : β → EStateM Fault (Column α) Unit} {part : β → Column α}
    {values : List β} (hfilled : p.Filled meaning columns done before outputs)
    (hbefore : before.length = p.outputs.length)
    (hroom : ∀ column ∈ before, done + size ≤ column.size)
    (hvalues : values.length = p.outputs.length) (hpart : ∀ v ∈ values, (part v).size = size)
    (hchange : ∀ v ∈ values, ∀ column, done + size ≤ column.size →
      change v column = .ok () (column.patch done (part v)))
    (hruns : ∀ i < size,
      p.RunsAt (meaning (done + i)) columns (done + i) (entriesAt (values.map part) i)) :
    ∃ after, BatchM.overwrite change values outputs = .ok () after ∧
      p.Filled meaning columns (done + size) before after := by
  have hlength : values.length = outputs.length := by
    rw [hvalues, hfilled.length_eq, hbefore]
  have hspace := hfilled.room hroom
  refine ⟨patchAll done (values.map part) outputs, overwrite_eq_ok hlength
    fun v hv column hcolumn => hchange v hv column (hspace column hcolumn), ?_⟩
  have hparts : ∀ column ∈ values.map part, column.size = size := by
    intro column hcolumn
    obtain ⟨v, hv, rfl⟩ := List.mem_map.mp hcolumn
    exact hpart v hv
  have hlength' : (values.map part).length = outputs.length := (List.length_map _).trans hlength
  refine ⟨(map_size_patchAll hlength' hparts hspace).trans hfilled.sizes, ?_, ?_⟩
  · intro point hpoint
    rw [entriesAt_patchAll hlength' hparts hspace]
    by_cases hnew : done ≤ point
    · have hrun := hruns (point - done) (by omega)
      rw [Nat.add_sub_cancel' hnew] at hrun
      rw [if_pos ⟨hnew, hpoint⟩]
      exact hrun
    · rw [if_neg (by omega)]
      exact hfilled.run (by omega)
  · intro point hpoint
    rw [entriesAt_patchAll hlength' hparts hspace, if_neg (by omega)]
    exact hfilled.rest (by omega)

/-- What the columns held before and what the runs give determine what they hold. -/
theorem unique {after after' : List (Column α)}
    (hfilled : p.Filled meaning columns done before after)
    (hfilled' : p.Filled meaning columns done before after') : after = after' := by
  have hentries : ∀ point, entriesAt after point = entriesAt after' point := by
    intro point
    by_cases hpoint : point < done
    · exact (hfilled.run hpoint).unique (hfilled'.run hpoint)
    · rw [hfilled.rest (by omega), hfilled'.rest (by omega)]
  apply List.ext_getElem (hfilled.length_eq.trans hfilled'.length_eq.symm)
  intro k hk hk'
  apply Array.ext_getElem?
  intro point
  have hentry := congrArg (fun entries => entries[k]?) (hentries point)
  simpa [entriesAt, hk, hk'] using hentry

end Filled

section Natural

variable (hp : p.Natural) (hinputs : columns.length = p.inputCount)

include hp hinputs

/-- In each lane, a run of a group is a run at the point of the lane; what has been left in the
slots makes no difference. -/
theorem exists_group_run (interp : Interpretation α) {base : Nat}
    (hcolumns : ∀ column ∈ columns, base + 4 ≤ column.size) {slots : Slots (Lanes α)}
    (hslots : slots.size = p.slotCount) :
    ∃ inputs slots' values, (columns.mapM fun column => Column.group column base) = .ok inputs ∧
      p.execute interp.lanes inputs.toArray slots = .ok slots' ∧ slots'.size = p.slotCount ∧
      slots'.readAll p.outputs = .ok values ∧ values.length = p.outputs.length ∧
      ∀ lane < 4,
        p.RunsAt interp columns (base + lane) (entriesAt (values.map Vector.toArray) lane) := by
  obtain ⟨inputs, hgroups, hvalues⟩ := exists_mapM_eq_ok fun column hcolumn =>
    Column.group_eq_ok (hcolumns column hcolumn)
  have hsize : inputs.toArray.size = p.inputCount := by
    rw [List.size_toArray, ← hvalues.length_eq, hinputs]
  obtain ⟨slots', values, hexecute, hslots', hread, hlength, hrun⟩ :=
    hp.execute interp.lanes hsize hslots
  refine ⟨inputs, slots', values, hgroups, hexecute, hslots', hread, hlength, fun lane hlane => ?_⟩
  refine ⟨inputs.map fun v => v[lane], values.map fun v => v[lane], ?_, ?_, ?_⟩
  · rw [List.map_map]
    exact map_eq_map_of_forall₂ hvalues fun _ _ hv => hv lane hlane
  · have hlane := hp.map (interp.lanes_morphism hlane) hsize hrun
    rwa [List.map_toArray] at hlane
  · simp [entriesAt, hlane]

variable {done : Nat}

/-- The loop over groups takes the columns on by four points a group. -/
theorem runGroups_fills {groups : Nat} {slots : Slots (Lanes α)} (hslots : slots.size = p.slotCount)
    (hcolumns : ∀ column ∈ columns, done + 4 * groups ≤ column.size)
    (hbefore : before.length = p.outputs.length)
    (hroom : ∀ column ∈ before, done + 4 * groups ≤ column.size)
    (hmeaning : ∀ i < 4 * groups, meaning (done + i) = interp.negatingFromZero)
    (hfilled : p.Filled meaning columns done before outputs) :
    ∃ after, p.runGroups interp columns groups done slots outputs = .ok () after ∧
      p.Filled meaning columns (done + 4 * groups) before after := by
  induction groups generalizing done slots outputs with
  | zero => exact ⟨outputs, rfl, hfilled⟩
  | succ groups ih =>
      have hgroup : done + 4 * (groups + 1) = done + 4 + 4 * groups := by omega
      rw [hgroup] at hcolumns hroom
      obtain ⟨inputs, slots', values, hread, hexecute, hslots', hvalues, hlength, hruns⟩ :=
        exists_group_run hp hinputs interp.negatingFromZero
          (fun column hcolumn => (Nat.le_add_right _ _).trans (hcolumns column hcolumn)) hslots
      obtain ⟨outputs', hwrite, hnext⟩ := hfilled.overwrite hbefore
        (fun column hcolumn => (Nat.le_add_right (done + 4) _).trans (hroom column hcolumn))
        hlength (fun v _ => v.size_toArray)
        (fun v _ column hspace => Column.putGroup_eq_ok hspace v) fun lane hlane => by
          rw [hmeaning lane (by omega)]
          exact hruns lane hlane
      obtain ⟨after, hrest, hafter⟩ := ih hslots' hcolumns hroom (fun i hi => by
        rw [Nat.add_assoc, hmeaning (4 + i) (by omega)]) hnext
      refine ⟨after, ?_, hgroup ▸ hafter⟩
      rw [runGroups]
      refine (bind_of_ok (compute_eq_ok hread outputs)).trans ?_
      refine (bind_of_ok (compute_eq_ok hexecute outputs)).trans ?_
      refine (bind_of_ok (compute_eq_ok hvalues outputs)).trans ?_
      exact (bind_of_ok hwrite).trans hrest

/-- The loop over single points takes the columns on point by point. -/
theorem runPoints_fills {points : Nat}
    (hcolumns : ∀ column ∈ columns, done + points ≤ column.size)
    (hbefore : before.length = p.outputs.length)
    (hroom : ∀ column ∈ before, done + points ≤ column.size)
    (hmeaning : ∀ i < points, meaning (done + i) = interp)
    (hfilled : p.Filled meaning columns done before outputs) :
    ∃ after, p.runPoints interp columns points done outputs = .ok () after ∧
      p.Filled meaning columns (done + points) before after := by
  induction points generalizing done outputs with
  | zero => exact ⟨outputs, rfl, hfilled⟩
  | succ points ih =>
      have hpoint : done + (points + 1) = done + 1 + points := by omega
      rw [hpoint] at hcolumns hroom
      obtain ⟨inputs, hread, hat⟩ := exists_mapM_eq_ok fun column hcolumn =>
        Column.exists_at? ((Nat.le_add_right (done + 1) _).trans (hcolumns column hcolumn))
      have hsize : inputs.toArray.size = p.inputCount := by
        rw [List.size_toArray, ← hat.length_eq, hinputs]
      obtain ⟨-, values, -, -, -, hlength, hrun⟩ :=
        hp.execute interp hsize (Slots.size_empty p.slotCount)
      obtain ⟨outputs', hwrite, hnext⟩ := hfilled.overwrite hbefore
        (fun column hcolumn => (Nat.le_add_right (done + 1) _).trans (hroom column hcolumn))
        hlength (fun v _ => rfl) (fun v _ column hspace => Column.put_eq_ok hspace v)
        fun i hi => by
          obtain rfl : i = 0 := by omega
          rw [hmeaning 0 (Nat.succ_pos points)]
          exact ⟨inputs, values, map_eq_map_of_forall₂ hat fun _ _ hv => hv, hrun, List.map_map⟩
      obtain ⟨after, hrest, hafter⟩ := ih hcolumns hroom (fun i hi => by
        rw [Nat.add_assoc, hmeaning (1 + i) (by omega)]) hnext
      refine ⟨after, ?_, hpoint ▸ hafter⟩
      rw [runPoints]
      refine (bind_of_ok (compute_eq_ok hread outputs)).trans ?_
      refine (bind_of_ok (compute_eq_ok hrun outputs)).trans ?_
      exact (bind_of_ok hwrite).trans hrest

end Natural

/-- The columns of a batch fit the program and each other. -/
structure Fits (p : Program) (columns outputs : List (Column α)) : Prop where
  input_count : columns.length = p.inputCount
  output_count : outputs.length = p.outputs.length
  points : ∀ column ∈ columns, column.size = pointCount columns outputs
  room : ∀ column ∈ outputs, pointCount columns outputs ≤ column.size

theorem checkLengths_cases (points : Nat) (columns : List (Column α)) :
    ((∀ column ∈ columns, column.size = points) ∧ checkLengths points columns = .ok ()) ∨
      (¬ (∀ column ∈ columns, column.size = points) ∧
        ∃ got, checkLengths points columns = .error (.sizeMismatch points got)) := by
  induction columns with
  | nil => exact .inl ⟨nofun, rfl⟩
  | cons column rest ih =>
      rw [checkLengths, List.forall_mem_cons]
      split
      · next hsize =>
        simpa only [hsize, true_and] using ih
      · next hsize => exact .inr ⟨fun hall => hsize hall.1, column.size, rfl⟩

theorem checkRoom_cases (points : Nat) (outputs : List (Column α)) :
    ((∀ column ∈ outputs, points ≤ column.size) ∧ checkRoom points outputs = .ok ()) ∨
      (¬ (∀ column ∈ outputs, points ≤ column.size) ∧
        ∃ got, checkRoom points outputs = .error (.sizeMismatch points got)) := by
  induction outputs with
  | nil => exact .inl ⟨nofun, rfl⟩
  | cons column rest ih =>
      rw [checkRoom, List.forall_mem_cons]
      split
      · next hroom =>
        simpa only [hroom, true_and] using ih
      · next hroom => exact .inr ⟨fun hall => hroom hall.1, column.size, rfl⟩

/-- The check of a batch succeeds exactly when its columns fit. -/
theorem checkBatch_cases (p : Program) (columns outputs : List (Column α)) :
    (p.Fits columns outputs ∧ p.checkBatch columns outputs = .ok (pointCount columns outputs)) ∨
      (¬ p.Fits columns outputs ∧
        ∃ expected got, p.checkBatch columns outputs = .error (.sizeMismatch expected got)) := by
  unfold checkBatch
  split_ifs with hinputs houtputs
  · exact .inr ⟨fun hfits => hinputs hfits.input_count, _, _, rfl⟩
  · exact .inr ⟨fun hfits => houtputs hfits.output_count, _, _, rfl⟩
  · dsimp only
    rcases checkLengths_cases (pointCount columns outputs) columns with
      ⟨hpoints, hcheck⟩ | ⟨hpoints, got, hcheck⟩
    · rcases checkRoom_cases (pointCount columns outputs) outputs with
        ⟨hroom, hcheck'⟩ | ⟨hroom, got, hcheck'⟩
      · refine .inl ⟨⟨not_not.mp hinputs, not_not.mp houtputs, hpoints, hroom⟩, ?_⟩
        rw [hcheck, hcheck']
        rfl
      · refine .inr ⟨fun hfits => hroom hfits.room, pointCount columns outputs, got, ?_⟩
        rw [hcheck, hcheck']
        rfl
    · refine .inr ⟨fun hfits => hpoints hfits.points, pointCount columns outputs, got, ?_⟩
      rw [hcheck]
      rfl

theorem runBatch_of_check_error {e : GraphError} (hcheck : p.checkBatch columns outputs = .error e)
    (interp : Interpretation α) :
    p.runBatch interp columns outputs = .error (.refused e) outputs :=
  bind_of_error (by simp only [inspect, hcheck])

/-- Columns that do not fit are refused and stay as they are. -/
theorem runBatch_of_not_fits (hfits : ¬ p.Fits columns outputs) (interp : Interpretation α) :
    ∃ expected got, p.runBatch interp columns outputs =
      .error (.refused (.sizeMismatch expected got)) outputs := by
  obtain ⟨hfits', -⟩ | ⟨-, expected, got, hcheck⟩ := p.checkBatch_cases columns outputs
  · exact absurd hfits' hfits
  · exact ⟨expected, got, runBatch_of_check_error hcheck interp⟩

/-- A natural program fills columns that fit, point by point. -/
theorem Natural.runBatch_fills (hp : p.Natural) (hfits : p.Fits columns outputs)
    (interp : Interpretation α) :
    ∃ after, p.runBatch interp columns outputs = .ok () after ∧
      p.Filled (interp.atPoint (pointCount columns outputs)) columns (pointCount columns outputs)
        outputs after := by
  obtain ⟨-, hcheck⟩ | ⟨hfits', -⟩ := p.checkBatch_cases columns outputs
  swap
  · exact absurd hfits hfits'
  have hgroups : 0 + 4 * (pointCount columns outputs / 4) ≤ pointCount columns outputs := by omega
  have hall : 4 * (pointCount columns outputs / 4) + pointCount columns outputs % 4 =
      pointCount columns outputs := Nat.div_add_mod _ 4
  obtain ⟨middle, hfirst, hmiddle⟩ := runGroups_fills hp hfits.input_count
    (Slots.size_empty p.slotCount)
    (fun column hcolumn => hfits.points column hcolumn ▸ hgroups) hfits.output_count
    (fun column hcolumn => hgroups.trans (hfits.room column hcolumn))
    (fun i hi => if_pos (by omega))
    (Filled.start p (interp.atPoint (pointCount columns outputs)) columns outputs)
  rw [Nat.zero_add] at hmiddle
  obtain ⟨after, hlast, hafter⟩ := runPoints_fills hp hfits.input_count
    (fun column hcolumn => (hall.trans (hfits.points column hcolumn).symm).le) hfits.output_count
    (fun column hcolumn => hall.le.trans (hfits.room column hcolumn))
    (fun i hi => if_neg (by omega)) hmiddle
  rw [hall] at hafter
  refine ⟨after, ?_, hafter⟩
  rw [runBatch]
  have hpoints : inspect (p.checkBatch columns) outputs =
      .ok (pointCount columns outputs) outputs := by
    simp only [inspect, hcheck]
  exact (bind_of_ok hpoints).trans ((bind_of_ok hfirst).trans hlast)

end Program

/-- The contract of batches.  Columns that do not fit are refused and stay as they are; otherwise
every output column gets at every point the result of a run at that point, whatever the groups
before it have left in their slots, and keeps what lies beyond the points. -/
theorem Session.Reachable.runBatch_pointwise {α : Type} {s : Session} (hs : s.Reachable)
    {graph : Nat} {g : Graph} (hg : s.graph? graph = some g) {nodes : Outputs}
    {inputs : List Handle} {reuse : Bool} {p : Program}
    (hcompile : g.compile nodes inputs reuse = .ok p) (interp : Interpretation α)
    (columns outputs : List (Column α)) :
    (¬ p.Fits columns outputs ∧ ∃ expected got,
      p.runBatch interp columns outputs = .error (.refused (.sizeMismatch expected got)) outputs) ∨
    (p.Fits columns outputs ∧ ∃ after, p.runBatch interp columns outputs = .ok () after ∧
      p.Filled (interp.atPoint (Program.pointCount columns outputs)) columns
        (Program.pointCount columns outputs) outputs after) := by
  have hp := (hs.wellFormed.graph hg).natural_of_compile hcompile
  by_cases hfits : p.Fits columns outputs
  · exact .inr ⟨hfits, hp.runBatch_fills hfits interp⟩
  · exact .inl ⟨hfits, Program.runBatch_of_not_fits hfits interp⟩

/-- A group of four points, a single one, and an entry beyond them that stays. -/
theorem runBatch_pointwise_square :
    Session.square.Reachable ∧ Session.square.graph? 0 = some Session.squareGraph ∧
    Session.squareGraph.compile (.ofList [⟨1, 0, 1⟩]) [⟨0, 0, 1⟩] true =
      .ok ⟨[.input 0 0, .binary .mul 0 0 0], [0], 1, 1, .vector 1⟩ ∧
    ∃ after, Program.runBatch ⟨[.input 0 0, .binary .mul 0 0 0], [0], 1, 1, .vector 1⟩
        (.ofScalar Float) [#[1.0, 2.0, 3.0, 4.0, 5.0]] [#[7.0, 7.0, 7.0, 7.0, 7.0, 7.0]] =
          .ok () after ∧
      Program.Filled ⟨[.input 0 0, .binary .mul 0 0 0], [0], 1, 1, .vector 1⟩
        ((Interpretation.ofScalar Float).atPoint 5) [#[1.0, 2.0, 3.0, 4.0, 5.0]] 5
        [#[7.0, 7.0, 7.0, 7.0, 7.0, 7.0]] after := by
  refine ⟨Session.reachable_square, Session.graph?_square, compile_square, ?_⟩
  have hfits : Program.Fits ⟨[.input 0 0, .binary .mul 0 0 0], [0], 1, 1, .vector 1⟩
      [#[1.0, 2.0, 3.0, 4.0, 5.0]] [#[7.0, 7.0, 7.0, 7.0, 7.0, 7.0]] :=
    ⟨rfl, rfl, by simp [Program.pointCount], by simp [Program.pointCount]⟩
  exact ((Session.reachable_square.runBatch_pointwise Session.graph?_square compile_square
    (.ofScalar Float) _ _).resolve_left fun hrefused => hrefused.1 hfits).2

end ExprGraph
