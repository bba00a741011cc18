import Mathlib
import ExprGraph.Proofs.Graph.Reading

/-!
# Building

What the building functions make of live operands: they succeed, the result is live, and under every
reading it has the value of the operator at the values of the operands.  The identities of the
operators, the search for a node that exists and the order in which operands are stored do not show.
A folded literal is computed in floating point, so it has that value only under readings that agree
with the computation.
-/

namespace ExprGraph

/-- What pairs say of their second components holds of the whole second list. -/
theorem forall_mem_of_forall₂ {β γ : Type*} {P : γ → Prop} {bs : List β} {cs : List γ}
    (hpairs : List.Forall₂ (fun _ c => P c) bs cs) : ∀ c ∈ cs, P c := by
  induction hpairs with
  | nil => exact fun c hc => absurd hc List.not_mem_nil
  | cons hc _ ih => exact List.forall_mem_cons.mpr ⟨hc, ih⟩

namespace Interpretation

variable {R : Type}

@[simp] theorem apply_one [Zero R] (interp : Interpretation R) (op : Op) (a : R) :
    interp.apply op [a] = interp.unary op a :=
  rfl

@[simp] theorem apply_two [Zero R] (interp : Interpretation R) (op : Op) (a b : R) :
    interp.apply op [a, b] = interp.binary op a b :=
  rfl

@[simp] theorem apply_three [Zero R] (interp : Interpretation R) (c a b : R) :
    interp.apply .ifElse [c, a, b] = interp.choose c a b :=
  rfl

variable [CommRing R] {interp : Interpretation R}

theorem Lawful.choose_self (hinterp : interp.Lawful) (c a : R) : interp.choose c a a = a := by
  rcases hinterp.choose_cases c with hfirst | hsecond
  · exact hfirst a a
  · exact hsecond a a

/-- The order in which operands of a commutative operator are stored does not matter. -/
theorem Lawful.binary_comm (hinterp : interp.Lawful) {op : Op} (hop : op.isCommutative = true)
    (a b : R) : interp.binary op a b = interp.binary op b a := by
  cases op with
  | add => rw [hinterp.add, hinterp.add, add_comm]
  | mul => rw [hinterp.mul, hinterp.mul, mul_comm]
  | eq => exact hinterp.eq_comm a b
  | ne => exact hinterp.ne_comm a b
  | _ => cases hop

theorem Lawful.apply_arrange (hinterp : interp.Lawful) (op : Op) (args : List Handle)
    (f : Handle → R) :
    interp.apply op ((op.arrange args).map f) = interp.apply op (args.map f) := by
  unfold Op.arrange
  split
  · next a b =>
    split_ifs with hswap
    · exact hinterp.binary_comm hswap.1 (f b) (f a)
    · rfl
  · rfl

end Interpretation

/-- Floats are told apart by their bits, as there is only one that is not a number. -/
theorem float_eq_of_toBits_eq {u v : Float} (hbits : u.toBits = v.toBits) : u = v := by
  obtain ⟨⟨ubits, hu⟩⟩ := u
  obtain ⟨⟨vbits, hv⟩⟩ := v
  obtain rfl : ubits = vbits := hbits
  rfl

namespace Graph

variable {g g' : Graph} {r : Reading}

/-- The literal that is looked up or made. -/
theorem WellFormed.node_literal (hg : g.WellFormed) (v : Float) :
    (g.literal v).2.node (g.literal v).1 = .ok (.lit v) := by
  unfold Graph.literal
  split
  · next h hfound =>
    obtain ⟨u, hu, hbits⟩ := hg.literals.mp hfound
    exact float_eq_of_toBits_eq hbits ▸ hu
  · exact g.node_push_self (.lit v)

/-- The application that is looked up or made. -/
theorem WellFormed.node_share (hg : g.WellFormed) (app : Application) :
    (g.share app).2.node (g.share app).1 = .ok (.app app) := by
  unfold Graph.share
  split
  · next h hfound => exact hg.operations.mp hfound
  · exact g.node_push_self (.app app)

/-- The value of what an identity makes of an application. -/
def Simplified.read? (g : Graph) (r : Reading) : Simplified → Option r.R
  | .same h => some (g.read r h)
  | .literal v => some (r.interp.literal v)
  | .negation a => some (-g.read r a)
  | .keep => none

/-- Identities keep the value of an application. -/
theorem Identity.read? (hg : g.WellFormed) {op : Op} {args : List Handle} {s : Simplified}
    (hidentity : g.Identity op args s) (r : Reading) :
    Simplified.read? g r s = some (r.interp.apply op (args.map (g.read r))) := by
  have hr := r.lawful
  cases hidentity with
  | zero_add ha => simp [Simplified.read?, hr.add, read_of_isZero ha]
  | add_zero hb => simp [Simplified.read?, hr.add, read_of_isZero hb]
  | sub_zero hb => simp [Simplified.read?, hr.sub, read_of_isZero hb]
  | sub_self => simp [Simplified.read?, hr.sub, hr.literal_zero_pos]
  | zero_sub ha => simp [Simplified.read?, hr.sub, read_of_isZero ha]
  | zero_mul ha => simp [Simplified.read?, hr.mul, hr.literal_zero_pos, read_of_isZero ha]
  | mul_zero hb => simp [Simplified.read?, hr.mul, hr.literal_zero_pos, read_of_isZero hb]
  | one_mul ha => simp [Simplified.read?, hr.mul, read_of_isOne ha]
  | mul_one hb => simp [Simplified.read?, hr.mul, read_of_isOne hb]
  | neg_one_mul ha => simp [Simplified.read?, hr.mul, read_of_isNegOne ha]
  | mul_neg_one hb => simp [Simplified.read?, hr.mul, read_of_isNegOne hb]
  | div_one hb => simp [Simplified.read?, hr.div_one, read_of_isOne hb]
  | div_neg_one hb => simp [Simplified.read?, hr.div_neg_one, read_of_isNegOne hb]
  | zero_div ha _ => simp [Simplified.read?, hr.zero_div, read_of_isZero ha]
  | pow_zero hb => simp [Simplified.read?, hr.pow_zero, hr.literal_one, read_of_isZero hb]
  | pow_one hb => simp [Simplified.read?, hr.pow_one, read_of_isOne hb]
  | neg_neg hn => simp [Simplified.read?, hr.neg, hg.read_of_app hn]
  | choose_self => simp [Simplified.read?, hr.choose_self]
  | choose_zero hn hv =>
      simp [Simplified.read?, read_of_lit hn, hr.literal_zero hv, hr.choose_zero]
  | choose_literal hn hv => simp [Simplified.read?, read_of_lit hn, hr.choose_literal hv]

/-- The node an identity finds is an operand or an operand's operand. -/
theorem Identity.live (hg : g.WellFormed) {op : Op} {args : List Handle} {h : Handle}
    (hidentity : g.Identity op args (.same h)) (hlive : ∀ a ∈ args, g.Live a) : g.Live h := by
  cases hidentity with
  | neg_neg hn => exact hg.live hn List.mem_cons_self
  | _ => exact hlive _ (by simp)

theorem WellFormed.live_settle (hg : g.WellFormed) (op : Op) (args : List Handle) :
    (g.settle op args).2.Live (g.settle op args).1 := by
  unfold Graph.settle
  split
  · exact ⟨_, hg.node_literal _⟩
  · exact ⟨_, hg.node_share _⟩

theorem WellFormed.live_negate (hg : g.WellFormed) (a : Handle) :
    (g.negate a).2.Live (g.negate a).1 := by
  rcases g.simplify_neg a with ⟨b, hsame, hn⟩ | hkeep
  · rw [negate, hsame]
    exact hg.live hn List.mem_cons_self
  · rw [negate, hkeep]
    exact hg.live_settle .neg [a]

/-- A node that is built is live. -/
theorem WellFormed.live_build (hg : g.WellFormed) {op : Op} {args : List Handle}
    (hlive : ∀ a ∈ args, g.Live a) : (g.build op args).2.Live (g.build op args).1 := by
  unfold Graph.build
  split
  · next h hsame => exact (identity_of_simplify hsame nofun).live hg hlive
  · exact ⟨_, hg.node_literal _⟩
  · exact hg.live_negate _
  · exact hg.live_settle op args

/-- The literal that an application is folded to when no identity applies to it. -/
def settledLiteral? (g : Graph) (op : Op) (args : List Handle) : Option Float :=
  (if g.folds then g.literalValues? args else none).map op.eval

/-- The literal that building an application folds to; none when nothing is folded. -/
def folded? (g : Graph) (op : Op) (args : List Handle) : Option Float :=
  match g.simplify op args with
  | .keep => g.settledLiteral? op args
  | .negation a => if g.simplify .neg [a] = .keep then g.settledLiteral? .neg [a] else none
  | _ => none

theorem folded?_of_not_folds (hfolds : g.folds = false) (op : Op) (args : List Handle) :
    g.folded? op args = none := by
  have hsettled : ∀ op args, g.settledLiteral? op args = none := by
    simp [settledLiteral?, hfolds]
  unfold folded?
  split <;> simp [hsettled]

/-- What is negated folds as its negation does. -/
theorem folded?_of_negation {op : Op} {args : List Handle} {a : Handle}
    (hneg : g.simplify op args = .negation a) : g.folded? op args = g.folded? .neg [a] := by
  rcases g.simplify_neg a with ⟨b, hsame, -⟩ | hkeep
  · simp [folded?, hneg, hsame]
  · simp [folded?, hneg, hkeep]

/-- The node of an application that is kept has its value. -/
theorem WellFormed.read_settle (hg : g.WellFormed) {op : Op} {args : List Handle}
    (harity : args.length = op.arity) (hlive : ∀ a ∈ args, g.Live a) (r : Reading)
    (hfolded : ∀ v, g.settledLiteral? op args = some v →
      r.interp.literal v = r.interp.apply op (args.map (g.read r))) :
    (g.settle op args).2.read r (g.settle op args).1 =
      r.interp.apply op (args.map (g.read r)) := by
  unfold settle
  split
  · next values hvalues =>
    rw [read_of_lit (hg.node_literal _)]
    exact hfolded _ (by rw [settledLiteral?, hvalues, Option.map_some])
  · have hshared : (g.share ⟨op, op.arrange args⟩).2.WellFormed :=
      hg.share (by simpa using harity) fun a ha => hlive a (Op.mem_arrange.mp ha)
    have hreads : args.map ((g.share ⟨op, op.arrange args⟩).2.read r) = args.map (g.read r) :=
      List.map_congr_left fun a ha => hg.read_extends hshared (share_extends g _) (hlive a ha)
    rw [hshared.read_of_app (hg.node_share _), r.lawful.apply_arrange, hreads]

theorem WellFormed.read_negate (hg : g.WellFormed) {a : Handle} (hlive : g.Live a) (r : Reading)
    (hfolded : ∀ v, g.folded? .neg [a] = some v → r.interp.literal v = -g.read r a) :
    (g.negate a).2.read r (g.negate a).1 = -g.read r a := by
  have hvalue : r.interp.apply .neg ([a].map (g.read r)) = -g.read r a := r.lawful.neg _
  rcases g.simplify_neg a with ⟨b, hsame, hn⟩ | hkeep
  · rw [negate, hsame, hg.read_of_app hn]
    simp [r.lawful.neg]
  · rw [negate, hkeep, ← hvalue]
    apply hg.read_settle rfl (by simpa using hlive) r
    intro v hv
    rw [hvalue]
    exact hfolded v (by rw [folded?, hkeep]; exact hv)

/-- A node that is built has the value of its operator at its operands, if the literal it may be
folded to has. -/
theorem WellFormed.read_build (hg : g.WellFormed) {op : Op} {args : List Handle}
    (harity : args.length = op.arity) (hlive : ∀ a ∈ args, g.Live a) (r : Reading)
    (hfolded : ∀ v, g.folded? op args = some v →
      r.interp.literal v = r.interp.apply op (args.map (g.read r))) :
    (g.build op args).2.read r (g.build op args).1 = r.interp.apply op (args.map (g.read r)) := by
  unfold Graph.build
  split
  · next h hsame =>
    exact Option.some.inj ((identity_of_simplify hsame nofun).read? hg r)
  · next v hliteral =>
    rw [read_of_lit (hg.node_literal v)]
    exact Option.some.inj ((identity_of_simplify hliteral nofun).read? hg r)
  · next a hneg =>
    have hidentity := identity_of_simplify hneg nofun
    have hvalue : -g.read r a = r.interp.apply op (args.map (g.read r)) :=
      Option.some.inj (hidentity.read? hg r)
    rw [← hvalue]
    apply hg.read_negate (hlive a hidentity.mem_of_negation) r
    intro v hv
    rw [hvalue]
    exact hfolded v (folded?_of_negation hneg ▸ hv)
  · next hkeep =>
    apply hg.read_settle harity hlive r
    intro v hv
    exact hfolded v (by rw [folded?, hkeep]; exact hv)

/-- The node is live and, in a graph that does not fold, has a stated value under every reading. -/
def Denotes (g : Graph) (h : Handle) (f : ∀ r : Reading, r.R) : Prop :=
  g.Live h ∧ (g.folds = false → ∀ r, g.read r h = f r)

namespace Denotes

variable {h : Handle} {f : ∀ r : Reading, r.R}

theorem of_live (hlive : g.Live h) : g.Denotes h fun r => g.read r h :=
  ⟨hlive, fun _ _ => rfl⟩

theorem of_extends (hdenotes : g.Denotes h f) (hg : g.WellFormed) (hg' : g'.WellFormed)
    (hext : g.Extends g') : g'.Denotes h f := by
  constructor
  · exact hext.live hdenotes.1
  · intro hfolds r
    rw [hg.read_extends hg' hext hdenotes.1]
    exact hdenotes.2 (hext.folds ▸ hfolds) r

theorem grows (hdenotes : g.Denotes h f) (hg : g.WellFormed) (hgrows : g.Grows g') :
    g'.Denotes h f :=
  hdenotes.of_extends hg (hg.grows hgrows) hgrows.extends

theorem congr {f' : ∀ r : Reading, r.R} (hdenotes : g.Denotes h f)
    (hf : g.folds = false → ∀ r, f r = f' r) : g.Denotes h f' :=
  ⟨hdenotes.1, fun hfolds r => (hdenotes.2 hfolds r).trans (hf hfolds r)⟩

/-- A node has the value that is stated of it. -/
theorem value?_eq (hdenotes : g.Denotes h f) (hg : g.WellFormed) (hfolds : g.folds = false)
    (r : Reading) : g.value? r.interp (fun x => some (r.assign x)) h = some (f r) := by
  rw [hg.value?_eq_eval r.interp r.assign hdenotes.1]
  exact congrArg some (hdenotes.2 hfolds r)

end Denotes

/-- Live nodes have the values they have. -/
theorem denotes_list_read {hs : List Handle} (hlive : ∀ h ∈ hs, g.Live h) :
    List.Forall₂ g.Denotes hs (hs.map fun h r => g.read r h) :=
  List.forall₂_map_right_iff.mpr (List.forall₂_same.mpr fun h hh => .of_live (hlive h hh))

theorem denotes_list_grows {hs : List Handle} {fs : List (∀ r : Reading, r.R)}
    (hdenotes : List.Forall₂ g.Denotes hs fs) (hg : g.WellFormed) (hgrows : g.Grows g') :
    List.Forall₂ g'.Denotes hs fs :=
  hdenotes.imp fun _ _ hf => hf.grows hg hgrows

theorem live_of_denotes_list {hs : List Handle} {fs : List (∀ r : Reading, r.R)}
    (hdenotes : List.Forall₂ g.Denotes hs fs) : ∀ h ∈ hs, g.Live h :=
  forall_mem_of_forall₂ (hdenotes.flip.imp fun _ _ hh => hh.1)

theorem map_read_of_denotes_list {hs : List Handle} {fs : List (∀ r : Reading, r.R)}
    (hdenotes : List.Forall₂ g.Denotes hs fs) (hfolds : g.folds = false) (r : Reading) :
    hs.map (g.read r) = fs.map fun f => f r := by
  induction hdenotes with
  | nil => rfl
  | cons hfirst _ ih => rw [List.map_cons, List.map_cons, hfirst.2 hfolds r, ih]

end Graph

namespace BuildM

open ExprGraph.Graph

variable {g : Graph}

theorem literal_succeeds (hg : g.WellFormed) (v : Float) :
    Succeeds Grows (literal v) g fun h g' => g'.Denotes h fun r => r.interp.literal v := by
  have hn := hg.node_literal v
  exact ⟨_, _, rfl, (Step.literal v).grows, ⟨_, hn⟩, fun _ r => read_of_lit hn⟩

theorem operation_succeeds (hg : g.WellFormed) {op : Op} {args : List Handle}
    {fs : List (∀ r : Reading, r.R)} (harity : args.length = op.arity)
    (hargs : List.Forall₂ g.Denotes args fs) :
    Succeeds Grows (operation op args) g fun h g' =>
      g'.Denotes h fun r => r.interp.apply op (fs.map fun f => f r) := by
  have hlive := live_of_denotes_list hargs
  have hgrows := build_grows harity hlive
  refine ⟨_, _, operation_eq harity hlive, hgrows, hg.live_build hlive, fun hfolds r => ?_⟩
  rw [hgrows.extends.folds] at hfolds
  rw [hg.read_build harity hlive r (by simp [folded?_of_not_folds hfolds]),
    map_read_of_denotes_list hargs hfolds r]

theorem unary_succeeds (hg : g.WellFormed) {op : Op} {a : Handle} {f : ∀ r : Reading, r.R}
    (harity : op.arity = 1) (ha : g.Denotes a f) :
    Succeeds Grows (operation op [a]) g fun h g' =>
      g'.Denotes h fun r => r.interp.unary op (f r) :=
  operation_succeeds hg (by rw [harity]; rfl) (.cons ha .nil)

theorem binary_succeeds (hg : g.WellFormed) {op : Op} {a b : Handle}
    {f f' : ∀ r : Reading, r.R} (harity : op.arity = 2) (ha : g.Denotes a f)
    (hb : g.Denotes b f') :
    Succeeds Grows (operation op [a, b]) g fun h g' =>
      g'.Denotes h fun r => r.interp.binary op (f r) (f' r) :=
  operation_succeeds hg (by rw [harity]; rfl) (.cons ha (.cons hb .nil))

theorem neg_succeeds (hg : g.WellFormed) {a : Handle} {f : ∀ r : Reading, r.R}
    (ha : g.Denotes a f) :
    Succeeds Grows (operation .neg [a]) g fun h g' => g'.Denotes h fun r => -f r :=
  (unary_succeeds hg rfl ha).weaken fun _ _ _ hh => hh.congr fun _ r => r.lawful.neg (f r)

theorem add_succeeds (hg : g.WellFormed) {a b : Handle} {f f' : ∀ r : Reading, r.R}
    (ha : g.Denotes a f) (hb : g.Denotes b f') :
    Succeeds Grows (operation .add [a, b]) g fun h g' => g'.Denotes h fun r => f r + f' r :=
  (binary_succeeds hg rfl ha hb).weaken fun _ _ _ hh =>
    hh.congr fun _ r => r.lawful.add (f r) (f' r)

theorem mul_succeeds (hg : g.WellFormed) {a b : Handle} {f f' : ∀ r : Reading, r.R}
    (ha : g.Denotes a f) (hb : g.Denotes b f') :
    Succeeds Grows (operation .mul [a, b]) g fun h g' => g'.Denotes h fun r => f r * f' r :=
  (binary_succeeds hg rfl ha hb).weaken fun _ _ _ hh =>
    hh.congr fun _ r => r.lawful.mul (f r) (f' r)

/-- Nodes that are joined from left to right by an operator of two operands. -/
theorem foldlM_succeeds (hg : g.WellFormed) {op : Op} (harity : op.arity = 2) {first : Handle}
    {rest : List Handle} {f : ∀ r : Reading, r.R} {fs : List (∀ r : Reading, r.R)}
    (hfirst : g.Denotes first f) (hrest : List.Forall₂ g.Denotes rest fs) :
    Succeeds Grows (rest.foldlM (fun total term => operation op [total, term]) first) g
      fun h g' => g'.Denotes h fun r =>
        (fs.map fun t => t r).foldl (r.interp.binary op) (f r) := by
  induction rest generalizing g first f fs with
  | nil =>
      cases hrest
      exact .pure hfirst
  | cons term rest ih =>
      obtain ⟨t, ts, hterm, hlater, rfl⟩ := List.forall₂_cons_left_iff.mp hrest
      rw [List.foldlM_cons]
      apply Succeeds.bind (binary_succeeds hg harity hfirst hterm)
      intro total g' hgrows htotal
      have hjoined := ih (hg.grows hgrows) htotal (denotes_list_grows hlater hg hgrows)
      exact hjoined

theorem validate_eq {first : Handle} (hlive : g.Live first) :
    inspect (fun g => g.validate [first]) g = .ok () g := by
  rw [inspect, validate_eq_ok_iff.mpr (by simpa using hlive)]

/-- The node of a sum has the sum of the values. -/
theorem sum_succeeds (hg : g.WellFormed) {terms : List Handle} {fs : List (∀ r : Reading, r.R)}
    (hterms : List.Forall₂ g.Denotes terms fs) :
    Succeeds Grows (sum terms) g fun h g' =>
      g'.Denotes h fun r => (fs.map fun f => f r).sum := by
  cases hterms with
  | nil =>
      exact (literal_succeeds hg 0.0).weaken fun _ _ _ hh =>
        hh.congr fun _ r => r.lawful.literal_zero_pos
  | @cons first f rest fs hfirst hrest =>
      apply Succeeds.bind_eq (validate_eq hfirst.1)
      apply (foldlM_succeeds hg rfl hfirst hrest).weaken
      intro h g' _ hh
      apply hh.congr
      intro _ r
      have hadd : r.interp.binary .add = (· + ·) := funext₂ r.lawful.add
      rw [hadd, List.sum_eq_foldl, List.map_cons, List.foldl_cons, zero_add]

/-- The node of a product has the product of the values. -/
theorem product_succeeds (hg : g.WellFormed) {factors : List Handle}
    {fs : List (∀ r : Reading, r.R)} (hfactors : List.Forall₂ g.Denotes factors fs) :
    Succeeds Grows (product factors) g fun h g' =>
      g'.Denotes h fun r => (fs.map fun f => f r).prod := by
  cases hfactors with
  | nil =>
      exact (literal_succeeds hg 1.0).weaken fun _ _ _ hh =>
        hh.congr fun _ r => r.lawful.literal_one
  | @cons first f rest fs hfirst hrest =>
      apply Succeeds.bind_eq (validate_eq hfirst.1)
      apply (foldlM_succeeds hg rfl hfirst hrest).weaken
      intro h g' _ hh
      apply hh.congr
      intro _ r
      have hmul : r.interp.binary .mul = (· * ·) := funext₂ r.lawful.mul
      rw [hmul, List.prod_eq_foldl, List.map_cons, List.foldl_cons, one_mul]

/-- The node of a dot product has the dot product of the values. -/
theorem dot_succeeds (hg : g.WellFormed) {left right : List Handle}
    (hlength : left.length = right.length) (hleft : ∀ a ∈ left, g.Live a)
    (hright : ∀ b ∈ right, g.Live b) :
    Succeeds Grows (dot left right) g fun h g' => g'.Denotes h fun r =>
      ((left.zip right).map fun pair => g.read r pair.1 * g.read r pair.2).sum := by
  rw [dot, if_neg (not_not.mpr hlength)]
  -- the products stay what they are while later ones are built
  have hstable : ∀ (pair : Handle × Handle) h g₁ g₂, Grows g₁ g₂ →
      (g₁.WellFormed ∧ g₁.Denotes h fun r => g.read r pair.1 * g.read r pair.2) →
      g₂.WellFormed ∧ g₂.Denotes h fun r => g.read r pair.1 * g.read r pair.2 :=
    fun pair h g₁ g₂ hgrows hh => ⟨hh.1.grows hgrows, hh.2.grows hh.1 hgrows⟩
  apply Succeeds.bind (Succeeds.mapM hstable (left.zip right) g fun pair hpair g' hgrows => ?_)
  · intro terms g' hgrows hterms
    have hdenotes : List.Forall₂ g'.Denotes terms ((left.zip right).map fun pair r =>
        g.read r pair.1 * g.read r pair.2) :=
      List.forall₂_map_right_iff.mpr (hterms.flip.imp fun _ _ hh => hh.2)
    apply (sum_succeeds (hg.grows hgrows) hdenotes).weaken
    intro h g'' _ hh
    exact hh.congr fun _ r => by rw [List.map_map]; rfl
  · obtain ⟨ha, hb⟩ := List.of_mem_zip hpair
    have hg' := hg.grows hgrows
    apply (mul_succeeds hg' ((Denotes.of_live (hleft _ ha)).grows hg hgrows)
      ((Denotes.of_live (hright _ hb)).grows hg hgrows)).weaken
    intro h g'' hgrows' hh
    exact ⟨hg'.grows hgrows', hh⟩

theorem scale_succeeds (hg : g.WellFormed) (factor : Float) {a : Handle}
    {f : ∀ r : Reading, r.R} (ha : g.Denotes a f) :
    Succeeds Grows (scale factor a) g fun h g' =>
      g'.Denotes h fun r => r.interp.literal factor * f r :=
  .bind (literal_succeeds hg factor) fun _ _ hgrows hc =>
    mul_succeeds (hg.grows hgrows) hc (ha.grows hg hgrows)

theorem powLiteral_succeeds (hg : g.WellFormed) {a : Handle} {f : ∀ r : Reading, r.R}
    (ha : g.Denotes a f) (exponent : Float) :
    Succeeds Grows (powLiteral a exponent) g fun h g' =>
      g'.Denotes h fun r => r.interp.binary .pow (f r) (r.interp.literal exponent) :=
  .bind (literal_succeeds hg exponent) fun _ _ hgrows he =>
    binary_succeeds (hg.grows hgrows) rfl (ha.grows hg hgrows) he

end BuildM

end ExprGraph
