import Mathlib
import ExprGraph.Proofs.Interpretation.Lawful

/-!
# Readings

A reading gives every node of a graph a value: it consists of a lawful interpretation and the values
of the variables.  Every reading has jets, the readings over dual numbers; they give a node its
tangent as well, which depends linearly on the tangents of the variables.
-/

namespace ExprGraph

namespace Graph

section Literals

variable {g : Graph} {h : Handle}

/-- What a test of literals says of a handle. -/
theorem holds_literal_iff {p : Node → Bool} {q : Float → Bool}
    (hp : ∀ n, p n = true ↔ ∃ v, n = .lit v ∧ q v = true) :
    g.holds p h = true ↔ ∃ v, g.node h = .ok (.lit v) ∧ q v = true := by
  unfold holds
  split
  · next n hn => simp [hn, hp]
  · next e hn => simp [hn]

theorem isZero_iff :
    g.isZero h = true ↔ ∃ v, g.node h = .ok (.lit v) ∧ isZeroLiteral v = true :=
  holds_literal_iff fun n => by cases n <;> simp [Node.isZero]

theorem isOne_iff : g.isOne h = true ↔ g.node h = .ok (.lit 1.0) := by
  have hone : g.isOne h = true ↔ ∃ v, g.node h = .ok (.lit v) ∧ isOneLiteral v = true :=
    holds_literal_iff fun n => by cases n <;> simp [Node.isOne]
  simpa [isOneLiteral] using hone

theorem isNegOne_iff : g.isNegOne h = true ↔ g.node h = .ok (.lit (-1.0)) := by
  have hone : g.isNegOne h = true ↔ ∃ v, g.node h = .ok (.lit v) ∧ isNegOneLiteral v = true :=
    holds_literal_iff fun n => by cases n <;> simp [Node.isNegOne]
  simpa [isNegOneLiteral] using hone

end Literals

section Eval

variable {R : Type} [Zero R] {g g' : Graph} {h : Handle} {interp : Interpretation R}
  {assign : Handle → R}

/-- The value of a node, when all variables have values. -/
def eval (g : Graph) (interp : Interpretation R) (assign : Handle → R) (h : Handle) : R :=
  (g.value? interp (fun x => some (assign x)) h).getD 0

theorem WellFormed.value?_eq_eval (hg : g.WellFormed) (interp : Interpretation R)
    (assign : Handle → R) (hlive : g.Live h) :
    g.value? interp (fun x => some (assign x)) h = some (g.eval interp assign h) := by
  obtain ⟨v, hv⟩ := hg.exists_value? interp assign hlive
  rw [eval, hv, Option.getD_some]

theorem WellFormed.eval_extends (hg : g.WellFormed) (hg' : g'.WellFormed) (hext : g.Extends g')
    (hlive : g.Live h) : g'.eval interp assign h = g.eval interp assign h := by
  rw [eval, eval, hg.value?_extends hg' hext interp _ hlive]

theorem eval_of_var {id : Nat} {name : String} (hn : g.node h = .ok (.var id name)) :
    g.eval interp assign h = assign h := by
  rw [eval, value?_of_var hn, Option.getD_some]

theorem eval_of_lit {v : Float} (hn : g.node h = .ok (.lit v)) :
    g.eval interp assign h = interp.literal v := by
  rw [eval, value?_of_lit hn, Option.getD_some]

theorem WellFormed.eval_of_app (hg : g.WellFormed) {app : Application}
    (hn : g.node h = .ok (.app app)) :
    g.eval interp assign h = interp.apply app.op (app.args.map (g.eval interp assign)) := by
  rw [eval, hg.value?_of_app hn,
    mapM_eq_some_map fun a ha => hg.value?_eq_eval interp assign (hg.live hn ha)]
  rfl

end Eval

end Graph

/-- A lawful interpretation with values for the variables. -/
structure Reading where
  R : Type
  [ring : CommRing R]
  interp : Interpretation R
  lawful : interp.Lawful
  assign : Handle → R

namespace Reading

attribute [instance] Reading.ring

/-- The values of variables with some tangents. -/
def moving (r : Reading) (seed : Handle → r.R) (x : Handle) : DualNumber r.R :=
  .inl (r.assign x) + .inr (seed x)

/-- The reading over dual numbers in which the variables have some tangents. -/
def jet (r : Reading) (seed : Handle → r.R) : Reading :=
  ⟨DualNumber r.R, r.interp.jet, r.lawful.jet, r.moving seed⟩

/-- The tangents of the variables when only one of them moves. -/
def direction (r : Reading) (var : Handle) : Handle → r.R := Pi.single var 1

end Reading

namespace Graph

variable {g g' : Graph} {h : Handle} {r : Reading} {seed : Handle → r.R}

/-- The value of a node. -/
def read (g : Graph) (r : Reading) (h : Handle) : r.R :=
  g.eval r.interp r.assign h

/-- The tangent of a node, when the variables have some tangents. -/
def tangent (g : Graph) (r : Reading) (seed : Handle → r.R) (h : Handle) : r.R :=
  (g.eval r.interp.jet (r.moving seed) h).snd

theorem read_of_var {id : Nat} {name : String} (hn : g.node h = .ok (.var id name)) :
    g.read r h = r.assign h :=
  eval_of_var hn

theorem read_of_lit {v : Float} (hn : g.node h = .ok (.lit v)) :
    g.read r h = r.interp.literal v :=
  eval_of_lit hn

/-- A literal that passes for zero reads as zero. -/
theorem read_of_isZero (hzero : g.isZero h = true) : g.read r h = 0 := by
  obtain ⟨v, hn, hv⟩ := isZero_iff.mp hzero
  exact (read_of_lit hn).trans (r.lawful.literal_zero hv)

theorem read_of_isOne (hone : g.isOne h = true) : g.read r h = 1 :=
  (read_of_lit (isOne_iff.mp hone)).trans r.lawful.literal_one

theorem read_of_isNegOne (hone : g.isNegOne h = true) : g.read r h = -1 :=
  (read_of_lit (isNegOne_iff.mp hone)).trans r.lawful.literal_neg_one

theorem tangent_of_var {id : Nat} {name : String} (hn : g.node h = .ok (.var id name)) :
    g.tangent r seed h = seed h := by
  rw [tangent, eval_of_var hn]
  simp [Reading.moving]

theorem tangent_of_lit {v : Float} (hn : g.node h = .ok (.lit v)) : g.tangent r seed h = 0 := by
  rw [tangent, eval_of_lit hn]
  simp [Interpretation.jet]

namespace WellFormed

theorem read_extends (hg : g.WellFormed) (hg' : g'.WellFormed) (hext : g.Extends g')
    (hlive : g.Live h) : g'.read r h = g.read r h :=
  hg.eval_extends hg' hext hlive

theorem tangent_extends (hg : g.WellFormed) (hg' : g'.WellFormed) (hext : g.Extends g')
    (hlive : g.Live h) : g'.tangent r seed h = g.tangent r seed h := by
  rw [tangent, tangent, hg.eval_extends hg' hext hlive]

theorem read_of_app (hg : g.WellFormed) {app : Application} (hn : g.node h = .ok (.app app)) :
    g.read r h = r.interp.apply app.op (app.args.map (g.read r)) :=
  hg.eval_of_app hn

/-- The value of a node in a jet of a reading is its value together with its tangent. -/
theorem fst_eval_jet (hg : g.WellFormed) (hlive : g.Live h) :
    (g.eval r.interp.jet (r.moving seed) h).fst = g.read r h := by
  have hassign : (fun x => some (r.moving seed x).fst) = fun x => some (r.assign x) := by
    funext x
    simp [Reading.moving]
  have hmap := hg.value?_morphism r.interp.jet_morphism (r.moving seed) h
  rw [hassign, hg.value?_eq_eval r.interp r.assign hlive,
    hg.value?_eq_eval r.interp.jet (r.moving seed) hlive, Option.map_some] at hmap
  exact (Option.some.inj hmap).symm

end WellFormed

end Graph

namespace Interpretation

variable {R : Type} [CommRing R]

/-- The sum of the slopes of an operator times some tangents, from operand number `index` on. -/
def chain (interp : Interpretation R) (op : Op) (args : List R) : Nat → List R → R
  | _, [] => 0
  | index, t :: rest => interp.slope op args index * t + interp.chain op args (index + 1) rest

/-- The chain rule. -/
theorem snd_apply_jet (interp : Interpretation R) {op : Op} {args : List (DualNumber R)}
    (harity : args.length = op.arity) :
    (interp.jet.apply op args).snd =
      interp.chain op (args.map TrivSqZeroExt.fst) 0 (args.map TrivSqZeroExt.snd) := by
  rcases op.arity_cases with hone | htwo | rfl
  · obtain ⟨a, rfl⟩ := List.length_eq_one_iff.mp (harity.trans hone)
    simp [apply, applied?, jet, chain]
  · obtain ⟨a, b, rfl⟩ := List.length_eq_two.mp (harity.trans htwo)
    simp [apply, applied?, jet, chain]
  · obtain ⟨c, a, b, rfl⟩ := List.length_eq_three.mp harity
    simp [apply, applied?, jet, chain, add_assoc]

/-- The chain rule is linear in the tangents. -/
theorem chain_linear (interp : Interpretation R) (op : Op) (args : List R) (index : Nat)
    (c : R) {α : Type} (as : List α) (s t : α → R) :
    interp.chain op args index (as.map fun a => c * s a + t a) =
      c * interp.chain op args index (as.map s) + interp.chain op args index (as.map t) := by
  induction as generalizing index with
  | nil => simp [chain]
  | cons a rest ih =>
      simp only [List.map_cons, chain, ih]
      ring

theorem chain_zero (interp : Interpretation R) (op : Op) (args : List R) (index : Nat)
    {α : Type} (as : List α) : interp.chain op args index (as.map fun _ => 0) = 0 := by
  induction as generalizing index with
  | nil => rfl
  | cons a rest ih => rw [List.map_cons, chain, ih, mul_zero, add_zero]

end Interpretation

namespace Graph

namespace WellFormed

variable {g : Graph} {h : Handle} {r : Reading}

theorem tangent_of_app (hg : g.WellFormed) {seed : Handle → r.R} {app : Application}
    (hn : g.node h = .ok (.app app)) :
    g.tangent r seed h =
      r.interp.chain app.op (app.args.map (g.read r)) 0 (app.args.map (g.tangent r seed)) := by
  rw [tangent, hg.eval_of_app hn,
    r.interp.snd_apply_jet (by rw [List.length_map, hg.arity hn]), List.map_map, List.map_map]
  have hfst : app.args.map (TrivSqZeroExt.fst ∘ g.eval r.interp.jet (r.moving seed)) =
      app.args.map (g.read r) :=
    List.map_congr_left fun a ha => hg.fst_eval_jet (hg.live hn ha)
  rw [hfst]
  rfl

/-- Tangents depend linearly on the tangents of the variables. -/
theorem tangent_linear (hg : g.WellFormed) (c : r.R) (s t : Handle → r.R) (hlive : g.Live h) :
    g.tangent r (fun x => c * s x + t x) h = c * g.tangent r s h + g.tangent r t h := by
  induction h, hlive using hg.induction with
  | step h n hn ih =>
      cases n with
      | var id name => rw [tangent_of_var hn, tangent_of_var hn, tangent_of_var hn]
      | lit v => rw [tangent_of_lit hn, tangent_of_lit hn, tangent_of_lit hn, mul_zero, add_zero]
      | app app =>
          rw [hg.tangent_of_app hn, hg.tangent_of_app hn, hg.tangent_of_app hn,
            ← r.interp.chain_linear]
          congr 1
          exact List.map_congr_left fun a ha => ih a (hg.live hn ha) ha

theorem tangent_zero (hg : g.WellFormed) (hlive : g.Live h) :
    g.tangent r (fun _ => 0) h = 0 := by
  have htwice := hg.tangent_linear (1 : r.R) (fun _ => 0) (fun _ => 0) hlive
  simp only [mul_zero, add_zero, one_mul] at htwice
  exact left_eq_add.mp htwice

/-- A tangent is the sum of the derivatives in the directions that make up the seed. -/
theorem tangent_sum (hg : g.WellFormed) {ι : Type} (is : List ι) (c : ι → r.R)
    (s : ι → Handle → r.R) (hlive : g.Live h) :
    g.tangent r (fun x => (is.map fun i => c i * s i x).sum) h =
      (is.map fun i => c i * g.tangent r (s i) h).sum := by
  induction is with
  | nil => exact hg.tangent_zero hlive
  | cons i rest ih =>
      simp only [List.map_cons, List.sum_cons]
      rw [hg.tangent_linear (c i) (s i) _ hlive, ih]

end WellFormed

end Graph

end ExprGraph
