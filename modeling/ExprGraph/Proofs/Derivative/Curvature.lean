import Mathlib
import ExprGraph.Proofs.Derivative.Jacobian

/-!
# Second derivatives are symmetric

The second derivatives of a node by two variables, in the one order and in the other, are read off
different formulas: first the slopes of an operator are differentiated, then the products with the
tangents of the operands.  They agree because every operator has symmetric second slopes, the bends
of this module; from the operators it carries over to all nodes by induction from operands to users.
Powers are the only operators for which this takes a law and a condition: the rule by the base and
the rule by the exponent fit together where the base is not zero.
-/

namespace ExprGraph

namespace Formula

variable {R R' : Type} [Zero R] [Zero R']

/-- A map of interpretations carries the value of a formula along. -/
theorem value_morphism {φ : R → R'} {source : Interpretation R} {target : Interpretation R'}
    (hφ : Interpretation.Morphism φ source target) {formula : Formula} {args : List R}
    (hfits : formula.Fits args.length) (self : R) :
    φ (formula.value source self args) = formula.value target (φ self) (args.map φ) := by
  induction formula with
  | self => rfl
  | operand index =>
      have hindex : index < args.length := hfits
      simp [value, List.getD, hindex]
  | literal v => exact hφ.literal v
  | unary op a iha => rw [value, hφ.unary hfits.1, iha hfits.2, value]
  | binary op a b iha ihb =>
      rw [value, hφ.binary hfits.1, iha hfits.2.1, ihb hfits.2.2, value]
  | select c a b ihc iha ihb =>
      rw [value, hφ.choose, ihc hfits.1, iha hfits.2.1, ihb hfits.2.2, value]
  | after first second _ ihsecond => exact ihsecond hfits.2

end Formula

namespace Interpretation

theorem Morphism.slope {R R' : Type} [Zero R] [Zero R'] {φ : R → R'} {source : Interpretation R}
    {target : Interpretation R'} (hφ : Morphism φ source target) {op : Op} {args : List R}
    (harity : args.length = op.arity) {index : Nat} (hindex : index < op.arity) :
    φ (source.slope op args index) = target.slope op (args.map φ) index := by
  obtain ⟨v, hv⟩ := source.exists_applied? harity
  have hself : target.apply op (args.map φ) = φ (source.apply op args) := by
    rw [apply, apply, hφ.applied? harity, hv]
    rfl
  rw [Interpretation.slope, Interpretation.slope, hself,
    Formula.value_morphism hφ (harity ▸ op.partialBy_fits hindex)]

variable {R : Type} [CommRing R]

/-- The sum of the tangents of the slopes of an operator times some other tangents, from operand
number `index` on: how the slopes change as the operands move, weighed by a second motion. -/
def bend (interp : Interpretation R) (op : Op) (args : List (DualNumber R)) : Nat → List R → R
  | _, [] => 0
  | index, t :: rest =>
    (interp.jet.slope op args index).snd * t + interp.bend op args (index + 1) rest

section Chain

variable (interp : Interpretation R) {op : Op} {args : List (DualNumber R)}
  (harity : args.length = op.arity)

include harity

theorem fst_chain_jet {index : Nat} {ts : List (DualNumber R)}
    (hindex : index + ts.length ≤ op.arity) :
    (interp.jet.chain op args index ts).fst =
      interp.chain op (args.map TrivSqZeroExt.fst) index (ts.map TrivSqZeroExt.fst) := by
  induction ts generalizing index with
  | nil => rfl
  | cons t rest ih =>
      rw [List.length_cons] at hindex
      rw [chain, TrivSqZeroExt.fst_add, TrivSqZeroExt.fst_mul, ih (by omega),
        interp.jet_morphism.slope harity (by omega), List.map_cons, chain]

/-- The chain rule, differentiated by the product rule. -/
theorem snd_chain_jet {index : Nat} {ts : List (DualNumber R)}
    (hindex : index + ts.length ≤ op.arity) :
    (interp.jet.chain op args index ts).snd =
      interp.chain op (args.map TrivSqZeroExt.fst) index (ts.map TrivSqZeroExt.snd) +
        interp.bend op args index (ts.map TrivSqZeroExt.fst) := by
  induction ts generalizing index with
  | nil => exact (add_zero 0).symm
  | cons t rest ih =>
      rw [List.length_cons] at hindex
      rw [chain, TrivSqZeroExt.snd_add, DualNumber.snd_mul, ih (by omega),
        interp.jet_morphism.slope harity (by omega), List.map_cons, List.map_cons, chain, bend]
      ring

end Chain

/-- A jet whose tangent is taken times a factor. -/
def speedUp (c : R) (z : DualNumber R) : DualNumber R := .inl z.fst + .inr (c * z.snd)

@[simp] theorem fst_speedUp (c : R) (z : DualNumber R) : (speedUp c z).fst = z.fst := by
  simp [speedUp]

@[simp] theorem snd_speedUp (c : R) (z : DualNumber R) : (speedUp c z).snd = c * z.snd := by
  simp [speedUp]

/-- Tangents are linear, so moving faster is a map of the interpretation to itself. -/
theorem speedUp_morphism (interp : Interpretation R) (c : R) :
    Morphism (speedUp c) interp.jet interp.jet where
  literal v := by simp [speedUp, jet]
  unary _ a := by
    apply TrivSqZeroExt.ext
    · simp [jet]
    · simp only [jet, snd_speedUp, fst_speedUp, TrivSqZeroExt.snd_add, TrivSqZeroExt.snd_inl,
        TrivSqZeroExt.snd_inr]
      ring
  binary _ a b := by
    apply TrivSqZeroExt.ext
    · simp [jet]
    · simp only [jet, snd_speedUp, fst_speedUp, TrivSqZeroExt.snd_add, TrivSqZeroExt.snd_inl,
        TrivSqZeroExt.snd_inr]
      ring
  choose t a b := by
    apply TrivSqZeroExt.ext
    · simp [jet]
    · simp only [jet, snd_speedUp, fst_speedUp, TrivSqZeroExt.snd_add, TrivSqZeroExt.snd_inl,
        TrivSqZeroExt.snd_inr]
      ring

/-- The bend of a unary operator is a number times both tangents, whatever its rule is. -/
theorem bend_unary (interp : Interpretation R) {op : Op} (harity : op.arity = 1) (x u v : R) :
    interp.bend op [.inl x + .inr u] 0 [v] = interp.bend op [.inl x + .inr v] 0 [u] := by
  have hslope (c : R) : (interp.jet.slope op [.inl x + .inr c] 0).snd =
      c * (interp.jet.slope op [.inl x + .inr 1] 0).snd := by
    have hlength : [(.inl x + .inr 1 : DualNumber R)].length = op.arity := harity.symm
    have hfaster := (interp.speedUp_morphism c).slope hlength (harity ▸ Nat.zero_lt_one)
    have harg : speedUp c (.inl x + .inr 1) = .inl x + .inr c := by simp [speedUp]
    rw [List.map_singleton, harg] at hfaster
    rw [← hfaster]
    simp [speedUp]
  rw [bend, bend, bend, bend, hslope u, hslope v]
  ring

/-- The slopes of a selection are zero and one, so they do not bend. -/
theorem Lawful.bend_ifElse {interp : Interpretation R} (hinterp : interp.Lawful)
    (c a b : DualNumber R) (dc da db : R) : interp.bend .ifElse [c, a, b] 0 [dc, da, db] = 0 := by
  obtain ⟨hcondition, hfirst, hsecond⟩ := hinterp.jet.slope_ifElse c a b
  rw [bend, bend, bend, bend, hcondition, hfirst, hsecond]
  rcases hinterp.jet.choose_cases c with hchoose | hchoose <;> simp [hchoose]

section Exact

variable {K : Type} [Field K] {interp : Interpretation K} (hinterp : interp.Exact)

include hinterp

/-- The bend of a quotient. -/
theorem Exact.bend_div (x y u u' v v' : K) :
    interp.bend .div [.inl x + .inr u, .inl y + .inr u'] 0 [v, v'] =
      -(u' * v + u * v') / (y * y) + 2 * x * u' * v' / (y * y * y) := by
  have hfirst : (interp.jet.slope .div [.inl x + .inr u, .inl y + .inr u'] 0).snd =
      -(1 / y / y) * u' := by
    simp [slope, Op.partialBy, Formula.value, jet, hinterp.div, hinterp.neg, hinterp.literal_one]
  have hsecond : (interp.jet.slope .div [.inl x + .inr u, .inl y + .inr u'] 1).snd =
      -(1 / y * (1 / y * u + -(x / y / y) * u') + -(x / y / y / y) * u') := by
    simp [slope, Op.partialBy, Formula.value, jet, hinterp.div, hinterp.neg, hinterp.literal_one,
      hinterp.literal_neg_one]
  rw [bend, bend, bend, hfirst, hsecond]
  ring

/-- The bend of a power. -/
theorem Exact.bend_pow
    (hpow : ∀ a b : K, a ≠ 0 → interp.binary .pow a b = a * interp.binary .pow a (b - 1))
    {x : K} (hx : x ≠ 0) (y u u' v v' : K) :
    interp.bend .pow [.inl x + .inr u, .inl y + .inr u'] 0 [v, v'] =
      y * ((y - 1) * interp.binary .pow x (y - 1 - 1)) * (u * v) +
        (interp.binary .pow x (y - 1) * (1 + y * interp.unary .ln x)) * (u' * v + u * v') +
        interp.binary .pow x y * (interp.unary .ln x * interp.unary .ln x) * (u' * v') := by
  have hfirst : (interp.jet.slope .pow [.inl x + .inr u, .inl y + .inr u'] 0).snd =
      interp.binary .pow x (y - 1) * u' + y * ((y - 1) * interp.binary .pow x (y - 1 - 1) * u +
        interp.binary .pow x (y - 1) * interp.unary .ln x * u') := by
    simp [slope, Op.partialBy, Formula.value, jet, hinterp.mul, hinterp.sub, hinterp.literal_one]
  have hsecond : (interp.jet.slope .pow [.inl x + .inr u, .inl y + .inr u'] 1).snd =
      interp.unary .ln x * (y * interp.binary .pow x (y - 1) * u +
        interp.binary .pow x y * interp.unary .ln x * u') +
        interp.binary .pow x y * (1 / x * u) := by
    simp [slope, Op.partialBy, Formula.value, jet, hinterp.mul, hinterp.sub, hinterp.div,
      hinterp.literal_one]
  -- the rule by the exponent has the power over the base where the rule by the base has the next
  -- lower power
  have hlower : interp.binary .pow x y * (1 / x * u) = interp.binary .pow x (y - 1) * u := by
    rw [hpow x y hx]
    field_simp
  rw [bend, bend, bend, hfirst, hsecond, hlower]
  ring

/-- The bend of the angle of a point. -/
theorem Exact.bend_atan2 (x y u u' v v' : K) :
    interp.bend .atan2 [.inl x + .inr u, .inl y + .inr u'] 0 [v, v'] =
      (2 * x * y * (u' * v' - u * v) + (x * x - y * y) * (u' * v + u * v')) /
        ((y * y + x * x) * (y * y + x * x)) := by
  have hfirst : (interp.jet.slope .atan2 [.inl x + .inr u, .inl y + .inr u'] 0).snd =
      1 / (y * y + x * x) * u' +
        -(y / (y * y + x * x) / (y * y + x * x)) * (y * u' + y * u' + (x * u + x * u)) := by
    simp [slope, Op.partialBy, Formula.value, Formula.square, jet, hinterp.div, hinterp.mul,
      hinterp.add, hinterp.neg, hinterp.literal_one]
  have hsecond : (interp.jet.slope .atan2 [.inl x + .inr u, .inl y + .inr u'] 1).snd =
      -(1 / (y * y + x * x) * u +
        -(x / (y * y + x * x) / (y * y + x * x)) * (y * u' + y * u' + (x * u + x * u))) := by
    simp [slope, Op.partialBy, Formula.value, Formula.square, jet, hinterp.div, hinterp.mul,
      hinterp.add, hinterp.neg, hinterp.literal_one, hinterp.literal_neg_one]
  rw [bend, bend, bend, hfirst, hsecond]
  by_cases hnorm : y * y + x * x = 0
  · simp [hnorm]
  · field_simp
    ring

/-- The bend of a binary operator is symmetric in the two motions. -/
theorem Exact.bend_binary
    (hpow : ∀ a b : K, a ≠ 0 → interp.binary .pow a b = a * interp.binary .pow a (b - 1))
    {op : Op} (harity : op.arity = 2) {x : K} (hbase : op = .pow → x ≠ 0) (y u u' v v' : K) :
    interp.bend op [.inl x + .inr u, .inl y + .inr u'] 0 [v, v'] =
      interp.bend op [.inl x + .inr v, .inl y + .inr v'] 0 [u, u'] := by
  have hzero := hinterp.lawful.literal_zero_pos
  cases op
  case mul =>
      simp only [bend, slope, Op.partialBy, Formula.value]
      simp
      ring
  case div =>
      rw [hinterp.bend_div, hinterp.bend_div]
      ring
  case pow =>
      rw [hinterp.bend_pow hpow (hbase rfl), hinterp.bend_pow hpow (hbase rfl)]
      ring
  case atan2 =>
      rw [hinterp.bend_atan2, hinterp.bend_atan2]
      ring
  -- the slopes of all other operators do not change
  all_goals first
    | exact absurd harity (by decide)
    | simp [bend, slope, Op.partialBy, Formula.value, jet, hzero, hinterp.literal_one]

/-- Second slopes do not depend on which of two motions comes first. -/
theorem Exact.bend_comm
    (hpow : ∀ a b : K, a ≠ 0 → interp.binary .pow a b = a * interp.binary .pow a (b - 1))
    {op : Op} {α : Type} {as : List α} (harity : as.length = op.arity) {x : α → K}
    (hbase : ∀ a b, op = .pow → as = [a, b] → x a ≠ 0) (u v : α → K) :
    interp.bend op (as.map fun a => .inl (x a) + .inr (u a)) 0 (as.map v) =
      interp.bend op (as.map fun a => .inl (x a) + .inr (v a)) 0 (as.map u) := by
  rcases op.arity_cases with hone | htwo | rfl
  · obtain ⟨a, rfl⟩ := List.length_eq_one_iff.mp (harity.trans hone)
    exact interp.bend_unary hone (x a) (u a) (v a)
  · obtain ⟨a, b, rfl⟩ := List.length_eq_two.mp (harity.trans htwo)
    exact hinterp.bend_binary hpow htwo (fun hop => hbase a b hop rfl) (x b) (u a) (u b) (v a) (v b)
  · obtain ⟨c, a, b, rfl⟩ := List.length_eq_three.mp harity
    exact (hinterp.lawful.bend_ifElse _ _ _ _ _ _).trans
      (hinterp.lawful.bend_ifElse _ _ _ _ _ _).symm

end Exact

end Interpretation

namespace Graph

variable {g : Graph} {h : Handle} {r : Reading}

/-- The bases of all powers below a node have values other than zero. -/
def BasesNonzero {K : Type} [Zero K] (g : Graph) (interp : Interpretation K) (assign : Handle → K)
    (node : Handle) : Prop :=
  ∀ h base exponent, g.Reaches node h → g.node h = .ok (.app ⟨.pow, [base, exponent]⟩) →
    g.value? interp (fun x => some (assign x)) base ≠ some 0

/-- The derivative of a node and how it changes as the variables move. -/
def derivativeJet (g : Graph) (node var : Handle) (r : Reading) (seed : Handle → r.R) :
    DualNumber r.R :=
  g.derivativeOf node var (r.jet seed)

theorem derivativeJet_of_var {id : Nat} {name : String} (hn : g.node h = .ok (.var id name))
    (var : Handle) (seed : Handle → r.R) :
    g.derivativeJet h var r seed = .inl (r.direction var h) := by
  rw [derivativeJet, derivativeOf, tangent_of_var hn, Reading.direction, Reading.direction,
    Pi.single_apply, Pi.single_apply]
  split
  · exact TrivSqZeroExt.inl_one (R := r.R) (M := r.R)
  · exact TrivSqZeroExt.inl_zero (R := r.R) (M := r.R)

theorem derivativeJet_of_lit {v : Float} (hn : g.node h = .ok (.lit v)) (var : Handle)
    (seed : Handle → r.R) : g.derivativeJet h var r seed = 0 :=
  tangent_of_lit hn

namespace WellFormed

/-- In a jet of a reading, a node has its value and its tangent. -/
theorem read_jet (hg : g.WellFormed) (seed : Handle → r.R) (hlive : g.Live h) :
    g.read (r.jet seed) h = (.inl (g.read r h) + .inr (g.tangent r seed h) : DualNumber r.R) := by
  apply TrivSqZeroExt.ext
  · rw [TrivSqZeroExt.fst_add, TrivSqZeroExt.fst_inl, TrivSqZeroExt.fst_inr, add_zero]
    exact hg.fst_eval_jet hlive
  · rw [TrivSqZeroExt.snd_add, TrivSqZeroExt.snd_inl, TrivSqZeroExt.snd_inr, zero_add]
    rfl

theorem derivativeJet_of_app (hg : g.WellFormed) {app : Application}
    (hn : g.node h = .ok (.app app)) (var : Handle) (seed : Handle → r.R) :
    g.derivativeJet h var r seed =
      r.interp.jet.chain app.op
        (app.args.map fun a => .inl (g.read r a) + .inr (g.tangent r seed a)) 0
        (app.args.map fun a => g.derivativeJet a var r seed) := by
  have hreads : app.args.map (g.read (r.jet seed)) =
      app.args.map fun a => (.inl (g.read r a) + .inr (g.tangent r seed a) : DualNumber r.R) :=
    List.map_congr_left fun a ha => hg.read_jet seed (hg.live hn ha)
  exact (hg.tangent_of_app hn).trans
    (congrArg (fun args => (r.jet seed).interp.chain app.op args 0 _) hreads)

/-- Each part of the derivative of an application has the length that its operator asks for. -/
theorem length_map_args (hg : g.WellFormed) {app : Application} (hn : g.node h = .ok (.app app))
    {α : Type} (f : Handle → α) : (app.args.map f).length = app.op.arity := by
  rw [List.length_map, hg.arity hn]

/-- The value of a derivative in a jet of a reading is the derivative. -/
theorem fst_derivativeJet (hg : g.WellFormed) (seed : Handle → r.R) (var : Handle)
    (hlive : g.Live h) : (g.derivativeJet h var r seed).fst = g.derivativeOf h var r := by
  induction h, hlive using hg.induction with
  | step h n hn ih =>
      cases n with
      | var id name =>
          rw [derivativeJet_of_var hn, TrivSqZeroExt.fst_inl, derivativeOf, tangent_of_var hn]
      | lit v =>
          rw [derivativeJet_of_lit hn, TrivSqZeroExt.fst_zero, derivativeOf, tangent_of_lit hn]
      | app app =>
          have hslopes :
              app.args.map (TrivSqZeroExt.fst ∘ fun a => g.derivativeJet a var r seed) =
                app.args.map (g.tangent r (r.direction var)) :=
            List.map_congr_left fun a ha => ih a (hg.live hn ha) ha
          rw [hg.derivativeJet_of_app hn, r.interp.fst_chain_jet (hg.length_map_args hn _)
            (by rw [hg.length_map_args hn, Nat.zero_add]), List.map_map, List.map_map, hslopes,
            derivativeOf, hg.tangent_of_app hn]
          simp [Function.comp_def]

/-- The second derivative of an application: slopes times the second derivatives of the operands,
and the bend in the two directions. -/
theorem curvatureOf_app (hg : g.WellFormed) {app : Application} (hn : g.node h = .ok (.app app))
    (var var' : Handle) :
    g.curvatureOf h var var' r =
      r.interp.chain app.op (app.args.map (g.read r)) 0
          (app.args.map fun a => g.curvatureOf a var var' r) +
        r.interp.bend app.op
          (app.args.map fun a => .inl (g.read r a) + .inr (g.derivativeOf a var' r)) 0
          (app.args.map fun a => g.derivativeOf a var r) := by
  have hslopes : app.args.map
      (TrivSqZeroExt.fst ∘ fun a => g.derivativeJet a var r (r.direction var')) =
        app.args.map fun a => g.derivativeOf a var r :=
    List.map_congr_left fun a ha => hg.fst_derivativeJet _ var (hg.live hn ha)
  have hjet : g.curvatureOf h var var' r = (g.derivativeJet h var r (r.direction var')).snd := rfl
  rw [hjet, hg.derivativeJet_of_app hn, r.interp.snd_chain_jet (hg.length_map_args hn _)
    (by rw [hg.length_map_args hn, Nat.zero_add]), List.map_map, List.map_map, List.map_map,
    hslopes]
  simp only [Function.comp_def, TrivSqZeroExt.fst_add, TrivSqZeroExt.fst_inl,
    TrivSqZeroExt.fst_inr, add_zero]
  rfl

/-- Second derivatives are symmetric where no power below the node has the base zero. -/
theorem curvatureOf_comm (hg : g.WellFormed) {K : Type} [Field K] {interp : Interpretation K}
    (hinterp : interp.Exact)
    (hpow : ∀ a b : K, a ≠ 0 → interp.binary .pow a b = a * interp.binary .pow a (b - 1))
    (assign : Handle → K) (hlive : g.Live h) (hbases : g.BasesNonzero interp assign h)
    (var var' : Handle) :
    g.curvatureOf h var var' ⟨K, interp, hinterp.lawful, assign⟩ =
      g.curvatureOf h var' var ⟨K, interp, hinterp.lawful, assign⟩ := by
  induction h, hlive using hg.induction with
  | step h n hn ih =>
      cases n with
      | var id name =>
          -- a variable moves at constant speed
          have hflat : ∀ x x', g.curvatureOf h x x' ⟨K, interp, hinterp.lawful, assign⟩ = 0 :=
            fun x x' => congrArg TrivSqZeroExt.snd (derivativeJet_of_var hn x _)
          rw [hflat, hflat]
      | lit v =>
          have hflat : ∀ x x', g.curvatureOf h x x' ⟨K, interp, hinterp.lawful, assign⟩ = 0 :=
            fun x x' => congrArg TrivSqZeroExt.snd (derivativeJet_of_lit hn x _)
          rw [hflat, hflat]
      | app app =>
          have hargs : g.argsOf h = app.args := argsOf_of_node hn
          have hoperands : ∀ a ∈ app.args,
              g.curvatureOf a var var' ⟨K, interp, hinterp.lawful, assign⟩ =
                g.curvatureOf a var' var ⟨K, interp, hinterp.lawful, assign⟩ := by
            intro a ha
            apply ih a (hg.live hn ha) ha
            intro h' base exponent hreaches
            exact hbases h' base exponent (.step (hargs ▸ ha) hreaches)
          have hbase : ∀ a b, app.op = .pow → app.args = [a, b] →
              g.read ⟨K, interp, hinterp.lawful, assign⟩ a ≠ 0 := by
            intro a b hop hab hzero
            have hnode : g.node h = .ok (.app ⟨.pow, [a, b]⟩) := by rw [hn, ← hop, ← hab]
            apply hbases h a b (.refl h) hnode
            rw [hg.value?_eq_eval interp assign (hg.live hn (by simp [hab]))]
            exact congrArg some hzero
          rw [hg.curvatureOf_app hn, hg.curvatureOf_app hn, List.map_congr_left hoperands]
          congr 1
          exact hinterp.bend_comm hpow (hg.arity hn) hbase _ _

end WellFormed

end Graph

end ExprGraph
