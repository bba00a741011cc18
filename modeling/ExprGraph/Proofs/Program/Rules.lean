import Mathlib
import ExprGraph.Proofs.Program.SinglePoint

/-!
# Evaluation rules

Rules by which a node has a value over scalars, with one rule for every kind of node and two for a
choice: it has the value of its second branch where the condition is a zero, and of its first branch
elsewhere.  How numbers are negated is left open, since a group of points negates by subtracting
from zero.

Runs and batches of a compiled program give the values of its outputs by these rules, and nothing
else.
-/

namespace ExprGraph

open BatchM

variable {α : Type} [Scalar α]

/-- An interpretation that differs from that of the scalars at most in how it negates. -/
structure Interpretation.NegatesBy (interp : Interpretation α) (negate : α → α) : Prop where
  literal (v : Float) : interp.literal v = Scalar.ofLiteral v
  neg (a : α) : interp.unary .neg a = negate a
  unary {op : Op} (hop : op ≠ .neg) (a : α) : interp.unary op a = op.evalUnary a
  binary (op : Op) (a b : α) : interp.binary op a b = op.evalBinary a b
  choose_of_zero {c : α} (hc : Scalar.same c Scalar.zero = true) (a b : α) : interp.choose c a b = b
  choose_of_nonzero {c : α} (hc : Scalar.same c Scalar.zero = false) (a b : α) :
    interp.choose c a b = a

namespace Interpretation

theorem negatesBy_ofScalar : (ofScalar α).NegatesBy Scalar.neg where
  literal _ := rfl
  neg _ := rfl
  unary _ _ := rfl
  binary _ _ _ := rfl
  choose_of_zero := Scalar.choose_of_zero
  choose_of_nonzero := Scalar.choose_of_nonzero

/-- How a number is negated at a point of a batch: in a group it is subtracted from zero. -/
def negationAt (α : Type) [Scalar α] (points point : Nat) : α → α :=
  if InGroup points point then Scalar.sub (Scalar.ofLiteral 0.0) else Scalar.neg

theorem negatesBy_negatingFromZero :
    (ofScalar α).negatingFromZero.NegatesBy (Scalar.sub (Scalar.ofLiteral 0.0)) where
  literal := negatingFromZero_literal _
  neg := negatingFromZero_neg _
  unary hop a := negatingFromZero_unary _ hop a
  binary := negatingFromZero_binary _
  choose_of_zero := Scalar.choose_of_zero
  choose_of_nonzero := Scalar.choose_of_nonzero

theorem negatesBy_atPoint (points point : Nat) :
    ((ofScalar α).atPoint points point).NegatesBy (negationAt α points point) := by
  unfold atPoint negationAt
  split
  · exact negatesBy_negatingFromZero
  · exact negatesBy_ofScalar

/-- Of five points the first lies in a group and the last one does not. -/
example : negationAt Float 5 0 0.0 = 0.0 ∧ negationAt Float 5 4 0.0 = -0.0 := by decide

end Interpretation

namespace Graph

/-- A node has a value by the rules, given how numbers are negated and the values of variables. -/
inductive Evaluates (g : Graph) (negate : α → α) (assign : Handle → Option α) : Handle → α → Prop
  | var {h : Handle} {id : Nat} {name : String} {v : α} (hn : g.node h = .ok (.var id name))
      (hv : assign h = some v) : Evaluates g negate assign h v
  | lit {h : Handle} {v : Float} (hn : g.node h = .ok (.lit v)) :
      Evaluates g negate assign h (Scalar.ofLiteral v)
  | neg {h a : Handle} {u : α} (hn : g.node h = .ok (.app ⟨.neg, [a]⟩))
      (ha : Evaluates g negate assign a u) : Evaluates g negate assign h (negate u)
  | unary {h a : Handle} {op : Op} {u : α} (hop : op ≠ .neg)
      (hn : g.node h = .ok (.app ⟨op, [a]⟩)) (ha : Evaluates g negate assign a u) :
      Evaluates g negate assign h (op.evalUnary u)
  | binary {h a b : Handle} {op : Op} {u v : α} (hn : g.node h = .ok (.app ⟨op, [a, b]⟩))
      (ha : Evaluates g negate assign a u) (hb : Evaluates g negate assign b v) :
      Evaluates g negate assign h (op.evalBinary u v)
  | otherwise {h c a b : Handle} {w u v : α} (hn : g.node h = .ok (.app ⟨.ifElse, [c, a, b]⟩))
      (hc : Evaluates g negate assign c w) (hzero : Scalar.same w Scalar.zero = true)
      (ha : Evaluates g negate assign a u) (hb : Evaluates g negate assign b v) :
      Evaluates g negate assign h v
  | chosen {h c a b : Handle} {w u v : α} (hn : g.node h = .ok (.app ⟨.ifElse, [c, a, b]⟩))
      (hc : Evaluates g negate assign c w) (hnonzero : Scalar.same w Scalar.zero = false)
      (ha : Evaluates g negate assign a u) (hb : Evaluates g negate assign b v) :
      Evaluates g negate assign h u

variable {g : Graph} {negate : α → α} {interp : Interpretation α} {assign : Handle → Option α}
  {h : Handle} {v : α}

/-- Whatever has a value by the rules has this value. -/
theorem Evaluates.value?_eq (heval : g.Evaluates negate assign h v) (hg : g.WellFormed)
    (hinterp : interp.NegatesBy negate) : g.value? interp assign h = some v := by
  induction heval with
  | var hn hv => rw [value?_of_var hn, hv]
  | lit hn => rw [value?_of_lit hn, hinterp.literal]
  | neg hn _ ha => simp [hg.value?_of_app hn, ha, Interpretation.applied?, hinterp.neg]
  | unary hop hn _ ha =>
      simp [hg.value?_of_app hn, ha, Interpretation.applied?, hinterp.unary hop]
  | binary hn _ _ ha hb =>
      simp [hg.value?_of_app hn, ha, hb, Interpretation.applied?, hinterp.binary]
  | otherwise hn _ hzero _ _ hc ha hb =>
      simp [hg.value?_of_app hn, hc, ha, hb, Interpretation.applied?,
        hinterp.choose_of_zero hzero]
  | chosen hn _ hnonzero _ _ hc ha hb =>
      simp [hg.value?_of_app hn, hc, ha, hb, Interpretation.applied?,
        hinterp.choose_of_nonzero hnonzero]

theorem evaluates_choose (hinterp : interp.NegatesBy negate) {c a b : Handle} {w u : α}
    (hn : g.node h = .ok (.app ⟨.ifElse, [c, a, b]⟩)) (hc : g.Evaluates negate assign c w)
    (ha : g.Evaluates negate assign a u) (hb : g.Evaluates negate assign b v) :
    g.Evaluates negate assign h (interp.choose w u v) := by
  cases hw : Scalar.same w Scalar.zero with
  | true =>
      rw [hinterp.choose_of_zero hw]
      exact .otherwise hn hc hw ha hb
  | false =>
      rw [hinterp.choose_of_nonzero hw]
      exact .chosen hn hc hw ha hb

/-- An application has by the rules the value that its operator gives at the values of its
operands. -/
theorem evaluates_app (hinterp : interp.NegatesBy negate) {op : Op} {args : List Handle}
    (hn : g.node h = .ok (.app ⟨op, args⟩)) {values : List α}
    (hargs : List.Forall₂ (g.Evaluates negate assign) args values)
    (happlied : interp.applied? op values = some v) : g.Evaluates negate assign h v := by
  -- no operator takes no operands, or more than three
  rcases hargs with _ | ⟨ha, _ | ⟨hb, _ | ⟨hc, _ | _⟩⟩⟩
  · cases happlied
  · obtain rfl := Option.some.inj happlied
    by_cases hop : op = .neg
    · subst hop
      rw [hinterp.neg]
      exact .neg hn ha
    · rw [hinterp.unary hop]
      exact .unary hop hn ha
  · obtain rfl := Option.some.inj happlied
    rw [hinterp.binary]
    exact .binary hn ha hb
  · by_cases hop : op = .ifElse
    · subst hop
      obtain rfl := Option.some.inj happlied
      exact evaluates_choose hinterp hn ha hb hc
    · simp [Interpretation.applied?, hop] at happlied
  · cases happlied

theorem WellFormed.evaluates_of_value? (hg : g.WellFormed) (hinterp : interp.NegatesBy negate)
    (hvalue : g.value? interp assign h = some v) : g.Evaluates negate assign h v := by
  have hlive : g.Live h := by
    cases hn : g.node h with
    | ok n => exact ⟨n, hn⟩
    | error e => simp [value?_of_error hn] at hvalue
  induction h, hlive using hg.induction generalizing v with
  | step h n hn ih =>
      cases n with
      | var id name => exact .var hn (by rwa [value?_of_var hn] at hvalue)
      | lit c =>
          rw [value?_of_lit hn, hinterp.literal] at hvalue
          obtain rfl := Option.some.inj hvalue
          exact .lit hn
      | app app =>
          rw [hg.value?_of_app hn] at hvalue
          obtain ⟨values, hvalues, happlied⟩ := Option.bind_eq_some_iff.mp hvalue
          have hpairs := List.forall₂_iff_zip.mp (mapM_eq_some_iff_forall₂.mp hvalues)
          refine evaluates_app hinterp hn (List.forall₂_iff_zip.mpr ⟨hpairs.1, ?_⟩) happlied
          intro a u hmem
          have ha := (List.of_mem_zip hmem).1
          exact ih a (hg.live hn ha) ha (hpairs.2 hmem)

/-- The rules give the values that evaluation gives. -/
theorem WellFormed.value?_eq_some_iff (hg : g.WellFormed) (hinterp : interp.NegatesBy negate) :
    g.value? interp assign h = some v ↔ g.Evaluates negate assign h v :=
  ⟨hg.evaluates_of_value? hinterp, fun heval => heval.value?_eq hg hinterp⟩

theorem WellFormed.mapM_value?_eq_some_iff (hg : g.WellFormed) (hinterp : interp.NegatesBy negate)
    {nodes : List Handle} {values : List α} :
    nodes.mapM (g.value? interp assign) = some values ↔
      List.Forall₂ (g.Evaluates negate assign) nodes values := by
  simp only [mapM_eq_some_iff_forall₂, hg.value?_eq_some_iff hinterp]

end Graph

namespace Session

variable {s : Session} {graph : Nat} {g : Graph} {outputs : Outputs} {inputs : List Handle}
  {reuse : Bool} {p : Program}

/-- The results of a run are the values that the rules give to the outputs. -/
theorem Reachable.run_evaluates (hs : s.Reachable) (hg : s.graph? graph = some g)
    (hcompile : g.compile outputs inputs reuse = .ok p) {values : Array α}
    (hvalues : values.size = p.inputCount) :
    ∃ results, p.run (.ofScalar α) values = .ok results ∧ ∀ results',
      List.Forall₂ (g.Evaluates Scalar.neg (inputValue? inputs values)) outputs.nodes results' ↔
        results' = results := by
  have hwf := hs.wellFormed.graph hg
  obtain ⟨results, hresults, hrun⟩ := hwf.run_of_compile hcompile (.ofScalar α) hvalues
  refine ⟨results, hrun, fun results' => ?_⟩
  rw [← hwf.mapM_value?_eq_some_iff Interpretation.negatesBy_ofScalar, hresults]
  exact ⟨fun hsame => (Option.some.inj hsame).symm, fun hsame => hsame ▸ rfl⟩

/-- At each of its points a batch leaves the values that the rules give to the outputs there. -/
theorem Reachable.runBatch_evaluates (hs : s.Reachable) (hg : s.graph? graph = some g)
    (hcompile : g.compile outputs inputs reuse = .ok p) {columns before : List (Column α)}
    (hfits : p.Fits columns before) :
    ∃ after, p.runBatch (.ofScalar α) columns before = .ok () after ∧
      ∀ point < Program.pointCount columns before, ∃ values results : List α,
        entriesAt columns point = values.map some ∧ entriesAt after point = results.map some ∧
          List.Forall₂ (g.Evaluates
            (Interpretation.negationAt α (Program.pointCount columns before) point)
            (inputValue? inputs values.toArray)) outputs.nodes results := by
  have hwf := hs.wellFormed.graph hg
  obtain ⟨after, hbatch, hfilled⟩ :=
    (hwf.natural_of_compile hcompile).runBatch_fills hfits (.ofScalar α)
  refine ⟨after, hbatch, fun point hpoint => ?_⟩
  obtain ⟨values, hat, hcount⟩ := hfits.exists_point hpoint
  obtain ⟨results, hresults, -⟩ := hwf.run_of_compile hcompile
    ((Interpretation.ofScalar α).atPoint (Program.pointCount columns before) point)
    (show values.toArray.size = p.inputCount from hcount)
  refine ⟨values, results, hat, ?_, ?_⟩
  · rw [hwf.entriesAt_of_filled hcompile hfilled hcount hpoint hat]
    exact map_eq_map_some_of_mapM hresults
  · exact (hwf.mapM_value?_eq_some_iff (Interpretation.negatesBy_atPoint _ _)).mp hresults

end Session

end ExprGraph
