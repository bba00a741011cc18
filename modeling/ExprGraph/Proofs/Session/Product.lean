import Mathlib
import ExprGraph.Proofs.Session.Derivative

/-!
# Products in sessions

Over a field, the products that one sweep builds are those of the Jacobian and the Hessian that are
built entry by entry.  Product and matrix may be asked for at different times in the life of a
graph, in either order, and with different memos.
-/

namespace ExprGraph

open ExprGraph.Graph

/-- A sum over pairs is a sum over the places of the second list. -/
theorem sum_zip_eq_sum_mapIdx {R α β : Type} [CommRing R] [Inhabited α] {as : List α} {bs : List β}
    (hlength : bs.length = as.length) (f : α → R) (c : β → R) :
    ((as.zip bs).map fun pair => c pair.2 * f pair.1).sum =
      (bs.mapIdx fun i b => f (as.getD i default) * c b).sum := by
  induction bs generalizing as with
  | nil => simp
  | cons b rest ih =>
      cases as with
      | nil => cases hlength
      | cons a as =>
          have hrest := ih (Nat.succ_injective hlength)
          simp only [List.zip_cons_cons, List.map_cons, List.sum_cons, List.mapIdx_cons,
            List.getD_cons_zero, List.getD_cons_succ, hrest, mul_comm (c b)]

namespace Graph

variable {R : Type}

/-- A matrix of nodes has as many rows and columns as stated, and its entries have the values that
are given for them. -/
structure EntriesEq (g : Graph) (interp : Interpretation R) (assign : Handle → R)
    (m : Matrix Handle) (rows cols : Nat) (entry : Nat → Nat → R) : Prop where
  rows_eq : m.rows = rows
  cols_eq : m.cols = cols
  value {i j : Nat} : i < rows → j < cols → ∃ d, m.get? i j = some d ∧
    g.value? interp (fun x => some (assign x)) d = some (entry i j)

/-- A product that has been built between two states of a graph multiplies a matrix of values by
seeds: fresh variables, one for every column. -/
structure Multiplies [CommRing R] (before after : Graph) (interp : Interpretation R)
    (assign : Handle → R) (p : VectorProduct) (rows cols : Nat) (entry : Nat → Nat → R) :
    Prop where
  seeds : p.seeds.length = cols
  fresh : before.FreshVariables after p.seeds
  length : p.product.length = rows
  value {i : Nat} : i < rows → ∃ d, p.product[i]? = some d ∧
    after.value? interp (fun x => some (assign x)) d =
      some (p.seeds.mapIdx fun j seed => entry i j * assign seed).sum

theorem EntriesEq.congr {g : Graph} {interp : Interpretation R} {assign : Handle → R}
    {m : Matrix Handle} {rows cols : Nat} {entry entry' : Nat → Nat → R}
    (hm : g.EntriesEq interp assign m rows cols entry)
    (hentry : ∀ i j, i < rows → j < cols → entry i j = entry' i j) :
    g.EntriesEq interp assign m rows cols entry' where
  rows_eq := hm.rows_eq
  cols_eq := hm.cols_eq
  value {i j} hi hj := by
    rw [← hentry i j hi hj]
    exact hm.value hi hj

variable {g g' : Graph} {F : Handle → Handle → ∀ r : Reading, r.R}

theorem DenotesMatrix.entriesEq {m : Matrix Handle} {outputs columns : List Handle}
    (hm : g.DenotesMatrix m outputs columns F) (hg : g.WellFormed) (hfolds : g.folds = false)
    (r : Reading) :
    g.EntriesEq r.interp r.assign m outputs.length columns.length fun i j =>
      F (outputs.getD i default) (columns.getD j default) r where
  rows_eq := hm.rows
  cols_eq := hm.cols
  value {i j} hi hj := by
    obtain ⟨d, hget, hd⟩ := hm.entry (List.getElem?_eq_getElem hi) (List.getElem?_eq_getElem hj)
    refine ⟨d, hget, ?_⟩
    rw [hd.value?_eq hg hfolds r, List.getD_eq_getElem _ _ hi, List.getD_eq_getElem _ _ hj]

theorem multiplies_of_denotes {p : VectorProduct} {rows columns : List Handle}
    (hg' : g'.WellFormed) (hfolds : g'.folds = false) (hseeds : p.seeds.length = columns.length)
    (hfresh : g.FreshVariables g' p.seeds)
    (hproduct : List.Forall₂ g'.Denotes p.product (rows.map fun row r =>
      ((columns.zip p.seeds).map fun pair => r.assign pair.2 * F row pair.1 r).sum))
    (r : Reading) :
    g.Multiplies g' r.interp r.assign p rows.length columns.length fun i j =>
      F (rows.getD i default) (columns.getD j default) r where
  seeds := hseeds
  fresh := hfresh
  length := by rw [hproduct.length_eq, List.length_map]
  value {i} hi := by
    have hi' : i < p.product.length := by rwa [hproduct.length_eq, List.length_map]
    have hd := hproduct.get hi' (by rwa [List.length_map])
    refine ⟨p.product[i], List.getElem?_eq_getElem hi', ?_⟩
    rw [List.get_eq_getElem, List.get_eq_getElem, List.getElem_map] at hd
    have hsum := sum_zip_eq_sum_mapIdx hseeds (fun col => F rows[i] col r) r.assign
    rw [hd.value?_eq hg' hfolds r, List.getD_eq_getElem _ _ hi, ← hsum]

theorem folds_eq (hsame : g.Extends g' ∨ g'.Extends g) : g'.folds = g.folds := by
  rcases hsame with hext | hext
  · exact hext.folds
  · exact hext.folds.symm

/-- Derivatives are the same in two states of a graph, whichever came first. -/
theorem WellFormed.derivativeOf_eq (hg : g.WellFormed) (hg' : g'.WellFormed)
    (hsame : g.Extends g' ∨ g'.Extends g) {node : Handle} (hlive : g.Live node)
    (hlive' : g'.Live node) : g'.derivativeOf node = g.derivativeOf node := by
  funext var
  rcases hsame with hext | hext
  · exact hg.derivativeOf_extends hg' hext hlive var
  · exact (hg'.derivativeOf_extends hg hext hlive' var).symm

/-- Second derivatives are the same in two states of a graph, whichever came first. -/
theorem WellFormed.curvatureOf_eq (hg : g.WellFormed) (hg' : g'.WellFormed)
    (hsame : g.Extends g' ∨ g'.Extends g) {node : Handle} (hlive : g.Live node)
    (hlive' : g'.Live node) : g'.curvatureOf node = g.curvatureOf node := by
  funext var var' r
  rw [curvatureOf, hg.derivativeOf_eq hg' hsame hlive hlive', curvatureOf]

end Graph

namespace DiffM

variable {w : Workspace} {outputs vars : List Handle} {node : Handle}

section Jacobian

variable (hw : w.Ready) (hfolds : w.graph.folds = false)
  (houtputs : ∀ out ∈ outputs, w.graph.Live out) (hvars : ∀ var ∈ vars, w.graph.IsVariable var)
  (r : Reading)

include hw hfolds houtputs hvars

/-- The entries of a Jacobian have the values of the derivatives. -/
theorem jacobian_entries : ∃ m w', jacobian outputs vars none w = .ok m w' ∧
    w'.graph.EntriesEq r.interp r.assign m outputs.length vars.length fun i j =>
      w.graph.derivativeOf (outputs.getD i default) (vars.getD j default) r := by
  obtain ⟨_, w', hrun, hadv, rows, rfl, hrows⟩ := jacobian_succeeds hw houtputs hvars
  have hprogress := hadv hw
  exact ⟨_, w', hrun, (denotesMatrix_of_rows hrows).entriesEq hprogress.ready.graph
    (hprogress.grows.extends.folds.trans hfolds) r⟩

/-- One forward sweep multiplies the derivatives by the seeds. -/
theorem jacobianTimes_multiplies : ∃ p w', jacobianTimes outputs vars w = .ok p w' ∧
    w.graph.Multiplies w'.graph r.interp r.assign p outputs.length vars.length fun i j =>
      w.graph.derivativeOf (outputs.getD i default) (vars.getD j default) r := by
  obtain ⟨p, w', hrun, hadv, hlength, hfresh, hp⟩ := jacobianTimes_succeeds hw houtputs hvars
  have hprogress := hadv hw
  exact ⟨p, w', hrun, multiplies_of_denotes hprogress.ready.graph
    (hprogress.grows.extends.folds.trans hfolds) hlength hfresh hp r⟩

/-- One reverse sweep multiplies the transposed derivatives by the seeds. -/
theorem transposeTimes_multiplies : ∃ p w', transposeTimes outputs vars w = .ok p w' ∧
    w.graph.Multiplies w'.graph r.interp r.assign p vars.length outputs.length fun j i =>
      w.graph.derivativeOf (outputs.getD i default) (vars.getD j default) r := by
  obtain ⟨p, w', hrun, hadv, hlength, hfresh, hp⟩ := transposeTimes_succeeds hw houtputs hvars
  have hprogress := hadv hw
  exact ⟨p, w', hrun, multiplies_of_denotes (F := fun var out => w.graph.derivativeOf out var)
    hprogress.ready.graph (hprogress.grows.extends.folds.trans hfolds) hlength hfresh hp r⟩

end Jacobian

section Hessian

variable (hw : w.Ready) (hfolds : w.graph.folds = false) (hlive : w.graph.Live node)
  (hvars : ∀ var ∈ vars, w.graph.IsVariable var) (r : Reading)

include hw hfolds hlive hvars

/-- The entries of a Hessian have the values of the second derivatives. -/
theorem hessian_entries : ∃ m w', hessian node vars w = .ok m w' ∧
    w'.graph.EntriesEq r.interp r.assign m vars.length vars.length fun i j =>
      w.graph.curvatureOf node (vars.getD i default) (vars.getD j default) r := by
  obtain ⟨m, w', hrun, hadv, hm⟩ := hessian_succeeds hw hfolds hlive hvars
  have hprogress := hadv hw
  exact ⟨m, w', hrun, hm.entriesEq hprogress.ready.graph
    (hprogress.grows.extends.folds.trans hfolds) r⟩

/-- A sweep over the gradient multiplies the second derivatives by the seeds. -/
theorem hessianTimes_multiplies : ∃ p w', hessianTimes node vars w = .ok p w' ∧
    w.graph.Multiplies w'.graph r.interp r.assign p vars.length vars.length fun i j =>
      w.graph.curvatureOf node (vars.getD i default) (vars.getD j default) r := by
  obtain ⟨p, w', hrun, hadv, hlength, hfresh, hp⟩ := hessianTimes_succeeds hw hfolds hlive hvars
  have hprogress := hadv hw
  exact ⟨p, w', hrun, multiplies_of_denotes hprogress.ready.graph
    (hprogress.grows.extends.folds.trans hfolds) hlength hfresh hp r⟩

end Hessian

end DiffM

namespace Session

variable {s t : Session} {graph graph' : Nat} {g g' : Graph} {outputs vars : List Handle}
  {K : Type} [Field K] {interp : Interpretation K}

/-- Reverse mode gives the product of the transposed Jacobian with the seeds. -/
theorem Reachable.transposeTimes_eq_jacobian (hs : s.Reachable) (ht : t.Reachable)
    (hg : s.graph? graph = some g) (hg' : t.graph? graph' = some g')
    (hsame : g.Extends g' ∨ g'.Extends g) (hfolds : g.folds = false) {memo memo' : Option Nat}
    (hmemo : memo = none ∨ s.ReachableInRange) (hmemo' : memo' = none ∨ t.ReachableInRange)
    (houtputs : ∀ out ∈ outputs, g.Live out ∧ g'.Live out)
    (hvars : ∀ var ∈ vars, g.IsVariable var ∧ g'.IsVariable var) (hinterp : interp.Exact)
    (assign : Handle → K) :
    ∃ p w m w' slope,
      DiffM.transposeTimes outputs vars ⟨g, s.memoFor memo⟩ = .ok p w ∧
      DiffM.jacobian outputs vars none ⟨g', t.memoFor memo'⟩ = .ok m w' ∧
      w'.graph.EntriesEq interp assign m outputs.length vars.length slope ∧
      g.Multiplies w.graph interp assign p vars.length outputs.length fun j i => slope i j := by
  have hw := hs.ready hg hmemo
  have hw' := ht.ready hg' hmemo'
  have hfolds' : g'.folds = false := (folds_eq hsame).trans hfolds
  obtain ⟨p, w, hproduct, hp⟩ := DiffM.transposeTimes_multiplies hw hfolds
    (fun out hout => (houtputs out hout).1) (fun var hvar => (hvars var hvar).1)
    ⟨K, interp, hinterp.lawful, assign⟩
  obtain ⟨m, w', hmatrix, hm⟩ := DiffM.jacobian_entries hw' hfolds'
    (fun out hout => (houtputs out hout).2) (fun var hvar => (hvars var hvar).2)
    ⟨K, interp, hinterp.lawful, assign⟩
  refine ⟨p, w, m, w', _, hproduct, hmatrix, hm.congr fun i j hi _ => ?_, hp⟩
  rw [List.getD_eq_getElem _ _ hi]
  have hout := houtputs _ (List.getElem_mem hi)
  rw [hw.graph.derivativeOf_eq hw'.graph hsame hout.1 hout.2]

/-- The outputs here are the square of a variable and the variable itself. -/
theorem transposeTimes_eq_jacobian_square :
    square.Reachable ∧ square.ReachableInRange ∧ square.graph? 0 = some squareGraph ∧
    squareGraph.Extends squareGraph ∧ squareGraph.folds = false ∧
    (∀ out ∈ ([⟨1, 0, 1⟩, ⟨0, 0, 1⟩] : List Handle), squareGraph.Live out) ∧
    (∀ var ∈ ([⟨0, 0, 1⟩] : List Handle), squareGraph.IsVariable var) ∧
    Interpretation.rational.Exact ∧
    ∃ p w m w' slope,
      DiffM.transposeTimes [⟨1, 0, 1⟩, ⟨0, 0, 1⟩] [⟨0, 0, 1⟩]
        ⟨squareGraph, square.memoFor none⟩ = .ok p w ∧
      DiffM.jacobian [⟨1, 0, 1⟩, ⟨0, 0, 1⟩] [⟨0, 0, 1⟩] none
        ⟨squareGraph, square.memoFor none⟩ = .ok m w' ∧
      w'.graph.EntriesEq Interpretation.rational (fun _ => 3) m 2 1 slope ∧
      squareGraph.Multiplies w.graph Interpretation.rational (fun _ => 3) p 1 2
        fun j i => slope i j := by
  have hlive : ∀ out ∈ ([⟨1, 0, 1⟩, ⟨0, 0, 1⟩] : List Handle), squareGraph.Live out :=
    List.forall_mem_cons.mpr ⟨⟨_, rfl⟩, List.forall_mem_singleton.mpr ⟨_, rfl⟩⟩
  have hvar : ∀ var ∈ ([⟨0, 0, 1⟩] : List Handle), squareGraph.IsVariable var :=
    List.forall_mem_singleton.mpr ⟨1, "x", rfl⟩
  refine ⟨reachable_square, inRange_square, graph?_square, .refl _, rfl, hlive, hvar,
    Interpretation.rational_exact, ?_⟩
  exact reachable_square.transposeTimes_eq_jacobian reachable_square graph?_square graph?_square
    (.inl (.refl _)) rfl (.inr inRange_square) (.inr inRange_square)
    (fun out hout => ⟨hlive out hout, hlive out hout⟩)
    (fun var hmem => ⟨hvar var hmem, hvar var hmem⟩) Interpretation.rational_exact fun _ => 3

/-- Forward mode gives the product of the Jacobian with the seeds, and over the gradient that of the
Hessian.  There is one seed for every place in the list of variables, so a variable that is listed
several times contributes once for each of its seeds. -/
theorem Reachable.forwardProducts_eq_dense (hs : s.Reachable) (ht : t.Reachable)
    (hg : s.graph? graph = some g) (hg' : t.graph? graph' = some g')
    (hsame : g.Extends g' ∨ g'.Extends g) (hfolds : g.folds = false) {memo memo' : Option Nat}
    (hmemo : memo = none ∨ s.ReachableInRange) (hmemo' : memo' = none ∨ t.ReachableInRange)
    (houtputs : ∀ out ∈ outputs, g.Live out ∧ g'.Live out) {node : Handle}
    (hnode : g.Live node ∧ g'.Live node)
    (hvars : ∀ var ∈ vars, g.IsVariable var ∧ g'.IsVariable var) (hinterp : interp.Exact)
    (assign : Handle → K) :
    (∃ p w m w' slope,
      DiffM.jacobianTimes outputs vars ⟨g, s.memoFor memo⟩ = .ok p w ∧
      DiffM.jacobian outputs vars none ⟨g', t.memoFor memo'⟩ = .ok m w' ∧
      w'.graph.EntriesEq interp assign m outputs.length vars.length slope ∧
      g.Multiplies w.graph interp assign p outputs.length vars.length slope) ∧
    ∃ p w m w' curvature,
      DiffM.hessianTimes node vars ⟨g, s.memoFor memo⟩ = .ok p w ∧
      DiffM.hessian node vars ⟨g', t.memoFor memo'⟩ = .ok m w' ∧
      w'.graph.EntriesEq interp assign m vars.length vars.length curvature ∧
      g.Multiplies w.graph interp assign p vars.length vars.length curvature := by
  have hw := hs.ready hg hmemo
  have hw' := ht.ready hg' hmemo'
  have hfolds' : g'.folds = false := (folds_eq hsame).trans hfolds
  have hvarsBefore : ∀ var ∈ vars, g.IsVariable var := fun var hvar => (hvars var hvar).1
  have hvarsAfter : ∀ var ∈ vars, g'.IsVariable var := fun var hvar => (hvars var hvar).2
  constructor
  · obtain ⟨p, w, hproduct, hp⟩ := DiffM.jacobianTimes_multiplies hw hfolds
      (fun out hout => (houtputs out hout).1) hvarsBefore ⟨K, interp, hinterp.lawful, assign⟩
    obtain ⟨m, w', hmatrix, hm⟩ := DiffM.jacobian_entries hw' hfolds'
      (fun out hout => (houtputs out hout).2) hvarsAfter ⟨K, interp, hinterp.lawful, assign⟩
    refine ⟨p, w, m, w', _, hproduct, hmatrix, hm.congr fun i j hi _ => ?_, hp⟩
    rw [List.getD_eq_getElem _ _ hi]
    have hout := houtputs _ (List.getElem_mem hi)
    rw [hw.graph.derivativeOf_eq hw'.graph hsame hout.1 hout.2]
  · obtain ⟨p, w, hproduct, hp⟩ := DiffM.hessianTimes_multiplies hw hfolds hnode.1 hvarsBefore
      ⟨K, interp, hinterp.lawful, assign⟩
    obtain ⟨m, w', hmatrix, hm⟩ := DiffM.hessian_entries hw' hfolds' hnode.2 hvarsAfter
      ⟨K, interp, hinterp.lawful, assign⟩
    refine ⟨p, w, m, w', _, hproduct, hmatrix, hm.congr fun i j _ _ => ?_, hp⟩
    rw [hw.graph.curvatureOf_eq hw'.graph hsame hnode.1 hnode.2]

/-- The variable is listed twice here. -/
theorem forwardProducts_eq_dense_square :
    square.Reachable ∧ square.ReachableInRange ∧ square.graph? 0 = some squareGraph ∧
    squareGraph.Extends squareGraph ∧ squareGraph.folds = false ∧
    squareGraph.Live ⟨1, 0, 1⟩ ∧
    (∀ var ∈ ([⟨0, 0, 1⟩, ⟨0, 0, 1⟩] : List Handle), squareGraph.IsVariable var) ∧
    Interpretation.rational.Exact ∧
    (∃ p w m w' slope,
      DiffM.jacobianTimes [⟨1, 0, 1⟩] [⟨0, 0, 1⟩, ⟨0, 0, 1⟩]
        ⟨squareGraph, square.memoFor none⟩ = .ok p w ∧
      DiffM.jacobian [⟨1, 0, 1⟩] [⟨0, 0, 1⟩, ⟨0, 0, 1⟩] none
        ⟨squareGraph, square.memoFor none⟩ = .ok m w' ∧
      w'.graph.EntriesEq Interpretation.rational (fun _ => 3) m 1 2 slope ∧
      squareGraph.Multiplies w.graph Interpretation.rational (fun _ => 3) p 1 2 slope) ∧
    ∃ p w m w' curvature,
      DiffM.hessianTimes ⟨1, 0, 1⟩ [⟨0, 0, 1⟩, ⟨0, 0, 1⟩]
        ⟨squareGraph, square.memoFor none⟩ = .ok p w ∧
      DiffM.hessian ⟨1, 0, 1⟩ [⟨0, 0, 1⟩, ⟨0, 0, 1⟩]
        ⟨squareGraph, square.memoFor none⟩ = .ok m w' ∧
      w'.graph.EntriesEq Interpretation.rational (fun _ => 3) m 2 2 curvature ∧
      squareGraph.Multiplies w.graph Interpretation.rational (fun _ => 3) p 2 2 curvature := by
  have hlive : squareGraph.Live ⟨1, 0, 1⟩ := ⟨_, rfl⟩
  have hvar : ∀ var ∈ ([⟨0, 0, 1⟩, ⟨0, 0, 1⟩] : List Handle), squareGraph.IsVariable var :=
    List.forall_mem_cons.mpr ⟨⟨1, "x", rfl⟩, List.forall_mem_singleton.mpr ⟨1, "x", rfl⟩⟩
  refine ⟨reachable_square, inRange_square, graph?_square, .refl _, rfl, hlive, hvar,
    Interpretation.rational_exact, ?_⟩
  exact reachable_square.forwardProducts_eq_dense reachable_square graph?_square graph?_square
    (.inl (.refl _)) rfl (.inr inRange_square) (.inr inRange_square)
    (List.forall_mem_singleton.mpr ⟨hlive, hlive⟩) ⟨hlive, hlive⟩
    (fun var hmem => ⟨hvar var hmem, hvar var hmem⟩) Interpretation.rational_exact fun _ => 3

end Session

end ExprGraph
