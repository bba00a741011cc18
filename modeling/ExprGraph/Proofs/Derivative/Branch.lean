import Mathlib
import ExprGraph.Proofs.Derivative.Recall
import ExprGraph.Proofs.Derivative.Support
import ExprGraph.Proofs.Graph.Commutation
import ExprGraph.Proofs.Graph.Normal
import ExprGraph.Proofs.Scalar.Weight

/-!
# The derivative of a choice

The derivative of a choice between two branches is built as a sum: the tangent of each branch times
the indicator of that branch, which is one where it is taken and zero where it is not.  So in double
precision it follows the tangent of the branch that is taken as long as the tangent of the other one
is finite.
-/

namespace ExprGraph

namespace Graph

variable {g g' : Graph} {assign : Handle → Option Float} {op : Op} {args : List Handle}
  {h a b c : Handle} {u v : Float}

/-- A live node with its value in double precision. -/
structure HasValue (g : Graph) (assign : Handle → Option Float) (h : Handle) (v : Float) :
    Prop where
  live : g.Live h
  eq : g.value? (.ofScalar Float) assign h = some v

theorem HasValue.grows (hvalue : g.HasValue assign h v) (hg : g.WellFormed)
    (hgrows : g.Grows g') : g'.HasValue assign h v where
  live := hgrows.extends.live hvalue.live
  eq := (hg.value?_extends (hg.grows hgrows) hgrows.extends _ assign hvalue.live).trans hvalue.eq

theorem hasValue_lit (hn : g.node h = .ok (.lit v)) : g.HasValue assign h v :=
  ⟨⟨_, hn⟩, value?_of_lit hn⟩

theorem HasValue.eq_of_lit (hvalue : g.HasValue assign h u) (hn : g.node h = .ok (.lit v)) :
    u = v :=
  Option.some.inj (hvalue.eq.symm.trans (value?_of_lit hn))

/-- An application has the value of its operator at the values of its operands. -/
theorem hasValue_app (hg : g.WellFormed) {app : Application} (hn : g.node h = .ok (.app app))
    {vs : List Float} (hargs : List.Forall₂ (g.HasValue assign) app.args vs)
    (hv : Interpretation.applied? (.ofScalar Float) app.op vs = some v) :
    g.HasValue assign h v := by
  have hvalues : app.args.mapM (g.value? (.ofScalar Float) assign) = some vs :=
    mapM_eq_some_iff_forall₂.mpr (hargs.imp fun _ _ ha => ha.eq)
  refine ⟨⟨_, hn⟩, ?_⟩
  rw [hg.value?_of_app hn, hvalues]
  exact hv

theorem hasValue_unary (hg : g.WellFormed) (hn : g.node h = .ok (.app ⟨op, [a]⟩))
    (ha : g.HasValue assign a u) : g.HasValue assign h (op.evalUnary u) :=
  hasValue_app hg hn (.cons ha .nil) rfl

theorem hasValue_binary (hg : g.WellFormed) (hn : g.node h = .ok (.app ⟨op, [a, b]⟩))
    (ha : g.HasValue assign a u) (hb : g.HasValue assign b v) :
    g.HasValue assign h (op.evalBinary u v) :=
  hasValue_app hg hn (.cons ha (.cons hb .nil)) rfl

theorem hasValue_choose (hg : g.WellFormed) (hn : g.node h = .ok (.app ⟨.ifElse, [c, a, b]⟩))
    {w : Float} (hc : g.HasValue assign c w) (ha : g.HasValue assign a u)
    (hb : g.HasValue assign b v) : g.HasValue assign h (Scalar.choose w u v) :=
  hasValue_app hg hn (.cons hc (.cons ha (.cons hb .nil))) rfl

/-- The order in which two operands are stored does not show in the value. -/
theorem hasValue_arranged (hg : g.WellFormed) (hop : op.isCommutative = true)
    (hn : g.node h = .ok (.app ⟨op, op.arrange [a, b]⟩)) (ha : g.HasValue assign a u)
    (hb : g.HasValue assign b v) : g.HasValue assign h (op.evalBinary u v) := by
  rcases op.arrange_eq_or [a, b] with hsame | ⟨a', b', heq, hswap⟩
  · exact hasValue_binary hg (hsame ▸ hn) ha hb
  · cases heq
    rw [evalBinary_comm hop u v]
    exact hasValue_binary hg (hswap ▸ hn) hb ha

/-- The condition of a choice that is stored: a node with a value that is no literal. -/
structure IsCondition (g : Graph) (assign : Handle → Option Float) (c : Handle) (w : Float) :
    Prop where
  value : g.HasValue assign c w
  not_lit (v : Float) : g.node c ≠ .ok (.lit v)

theorem IsCondition.grows {w : Float} (hc : g.IsCondition assign c w) (hg : g.WellFormed)
    (hgrows : g.Grows g') : g'.IsCondition assign c w where
  value := hc.value.grows hg hgrows
  not_lit := by
    obtain ⟨n, hn⟩ := hc.value.live
    rw [hgrows.extends.node_eq hn, ← hn]
    exact hc.not_lit

/-- What is stored between two branches chooses by something that is no literal. -/
theorem HasValue.isCondition {w : Float} (hc : g.HasValue assign c w)
    (hkeep : g.simplify .ifElse [c, a, b] = .keep) : g.IsCondition assign c w where
  value := hc
  not_lit := by
    intro v hn
    simp only [simplify, hn] at hkeep
    split_ifs at hkeep

/-- An application that no identity applies to, and whose operands are not all literals, becomes a
node of its own. -/
theorem node_build_of_keep (hg : g.WellFormed) (hkeep : g.simplify op args = .keep)
    (hopen : ∃ a ∈ args, ∀ v, g.node a ≠ .ok (.lit v)) :
    (g.build op args).2.node (g.build op args).1 = .ok (.app ⟨op, op.arrange args⟩) := by
  have hunsettled : g.settledLiteral? op args = none := by
    rw [settledLiteral?, literalValues?_eq_none_iff.mpr hopen]
    simp
  rw [build_of_keep hkeep, settle_eq, hunsettled]
  exact hg.node_share _

/-- An indicator: a choice that has the value one where something is taken and zero elsewhere. -/
structure Indicates (g : Graph) (assign : Handle → Option Float) (taken : Bool) (p : Handle) :
    Prop where
  isChoice : ∃ args, g.node p = .ok (.app ⟨.ifElse, args⟩)
  value : g.HasValue assign p (Scalar.truth taken)

/-- An application whose value is a number weighted by an indicator. -/
structure IsTerm (g : Graph) (assign : Handle → Option Float) (taken : Bool) (u : Float)
    (h : Handle) : Prop where
  isApplication : ∃ app, g.node h = .ok (.app app)
  value : ∃ w, g.HasValue assign h w ∧ Weighs taken u w

theorem IsTerm.grows {taken : Bool} (hterm : g.IsTerm assign taken u h) (hg : g.WellFormed)
    (hgrows : g.Grows g') : g'.IsTerm assign taken u h := by
  obtain ⟨⟨app, hn⟩, w, hw, hweighs⟩ := hterm
  exact ⟨⟨app, hgrows.extends.node_eq hn⟩, w, hw.grows hg hgrows, hweighs⟩

theorem not_lit_of_app {app : Application} (hn : g.node h = .ok (.app app)) (v : Float) :
    g.node h ≠ .ok (.lit v) := by
  rw [hn]
  exact nofun

theorem not_lit_of_isVariable (hvar : g.IsVariable h) (v : Float) : g.node h ≠ .ok (.lit v) := by
  obtain ⟨id, name, hn⟩ := hvar
  rw [hn]
  exact nofun

theorem isZero_of_not_lit (hopen : ∀ v, g.node h ≠ .ok (.lit v)) : g.isZero h = false :=
  Bool.eq_false_iff.mpr fun hzero => by
    obtain ⟨v, hn, -⟩ := isZero_iff.mp hzero
    exact hopen v hn

theorem isOne_of_not_lit (hopen : ∀ v, g.node h ≠ .ok (.lit v)) : g.isOne h = false :=
  Bool.eq_false_iff.mpr fun hone => hopen _ (isOne_iff.mp hone)

theorem isNegOne_of_not_lit (hopen : ∀ v, g.node h ≠ .ok (.lit v)) : g.isNegOne h = false :=
  Bool.eq_false_iff.mpr fun hnegOne => hopen _ (isNegOne_iff.mp hnegOne)

theorem isZero_of_one (hn : g.node h = .ok (.lit 1.0)) : g.isZero h = false := by
  have hone : isZeroLiteral 1.0 = false := by decide
  refine Bool.eq_false_iff.mpr fun hzero => ?_
  obtain ⟨v, hv, hliteral⟩ := isZero_iff.mp hzero
  cases hn.symm.trans hv
  exact absurd hliteral (by rw [hone]; decide)

end Graph

open ExprGraph.Graph

namespace BuildM

variable {g : Graph} {assign : Handle → Option Float} {op : Op} {args : List Handle}
  {taken : Bool} {u : Float} {node c p t : Handle} {app : Application}

theorem operation_gives_node (hg : g.WellFormed) (hkeep : g.simplify op args = .keep)
    (hopen : ∃ a ∈ args, ∀ v, g.node a ≠ .ok (.lit v)) :
    Gives Grows (operation op args) g fun h g' =>
      g'.node h = .ok (.app ⟨op, op.arrange args⟩) := by
  rcases operation_cases op args g with ⟨e, hrefused⟩ | ⟨harity, hlive, hrun⟩
  · exact .of_error hrefused
  · exact (Succeeds.of_eq hrun (build_grows harity hlive)
      (node_build_of_keep hg hkeep hopen)).gives

/-- The product of an indicator and a tangent.  A tangent of one or minus one leaves the indicator
or its negation. -/
theorem mul_gives_term (hg : g.WellFormed) (hp : g.Indicates assign taken p)
    (ht : g.HasValue assign t u) (hzero : g.isZero t = false) :
    Gives Grows (operation .mul [p, t]) g fun h g' => g'.IsTerm assign taken u h := by
  obtain ⟨⟨args, hn⟩, hvalue⟩ := hp
  have hopen := not_lit_of_app hn
  rcases operation_cases .mul [p, t] g with ⟨e, hrefused⟩ | ⟨harity, hlive, hrun⟩
  · exact .of_error hrefused
  have hgrows := build_grows harity hlive
  refine (Succeeds.of_eq hrun hgrows ?_).gives
  have hsimplify : g.simplify .mul [p, t] =
      if g.isOne t then .same p else if g.isNegOne t then .negation p else .keep := by
    simp [simplify, isZero_of_not_lit hopen, isOne_of_not_lit hopen, isNegOne_of_not_lit hopen,
      hzero]
  split_ifs at hsimplify with hone hnegOne
  · rw [build, hsimplify]
    obtain rfl := ht.eq_of_lit (isOne_iff.mp hone)
    exact ⟨⟨_, hn⟩, _, hvalue, weighs_one taken⟩
  · obtain rfl := ht.eq_of_lit (isNegOne_iff.mp hnegOne)
    have hneg : g.simplify .neg [p] = .keep := by simp [simplify, hn]
    have hnegate : g.build .mul [p, t] = g.build .neg [p] := by
      simp only [build, hsimplify, hneg, negate]
    rw [hnegate] at hgrows ⊢
    have hmade := node_build_of_keep hg hneg ⟨p, List.mem_cons_self, hopen⟩
    exact ⟨⟨_, hmade⟩, _, hasValue_unary (hg.grows hgrows) hmade (hvalue.grows hg hgrows),
      weighs_neg_one taken⟩
  · have hmade := node_build_of_keep hg hsimplify ⟨p, List.mem_cons_self, hopen⟩
    have hterm := hasValue_arranged (hg.grows hgrows) rfl hmade
      (hvalue.grows hg hgrows) (ht.grows hg hgrows)
    exact ⟨⟨_, hmade⟩, _, hterm, weighs_mul taken u⟩

/-- The choice between two literals by the first operand. -/
theorem select_gives (hg : g.WellFormed) (hargs : args[0]? = some c) {w u v : Float}
    (hc : g.IsCondition assign c w) (hne : u ≠ v) :
    Gives Grows ((Formula.select (.operand 0) (.literal u) (.literal v)).build node args) g
      fun p g' => (∃ args, g'.node p = .ok (.app ⟨.ifElse, args⟩)) ∧
        g'.HasValue assign p (Scalar.choose w u v) := by
  have hoperand : (Formula.operand 0).build node args g = .ok c g := by
    rw [Formula.build, hargs]
    rfl
  refine .bind_eq hoperand (.bind (literal_gives_node hg u) fun x g₁ hgrows₁ hx => ?_)
  have hg₁ := hg.grows hgrows₁
  refine .bind (literal_gives_node hg₁ v) fun y g₂ hgrows₂ hy => ?_
  have hg₂ := hg₁.grows hgrows₂
  have hx₂ := hgrows₂.extends.node_eq hx
  have hc₂ := hc.grows hg (hgrows₁.trans hgrows₂)
  have hxy : x ≠ y := by
    rintro rfl
    exact hne (by simpa using hx₂.symm.trans hy)
  have hkeep : g₂.simplify .ifElse [c, x, y] = .keep := by
    rw [simplify, if_neg hxy]
    split
    · next v hn => exact absurd hn (hc₂.not_lit v)
    · rfl
  refine (operation_gives_node hg₂ hkeep ⟨c, List.mem_cons_self, hc₂.not_lit⟩).weaken
    fun p g₃ hgrows₃ hp => ⟨⟨_, hp⟩, ?_⟩
  exact hasValue_choose (hg₂.grows hgrows₃) hp (hc₂.value.grows hg₂ hgrows₃)
    (hasValue_lit (hgrows₃.extends.node_eq hx₂)) (hasValue_lit (hgrows₃.extends.node_eq hy))

/-- The partial by the condition is zero. -/
theorem conditionPartial_gives (hg : g.WellFormed) (node : Handle) (args : List Handle) :
    Gives Grows ((Op.ifElse.partialBy 0).build node args) g fun p g' => g'.isZero p = true :=
  .bind (literal_gives_node hg 1.0) fun _ _ hgrows _ =>
    (literal_gives_node (hg.grows hgrows) 0.0).weaken fun _ _ _ => isZero_of_node

/-- The partial by the first branch indicates that the condition is no zero. -/
theorem firstPartial_gives (hg : g.WellFormed) (hargs : args[0]? = some c) {w : Float}
    (hc : g.IsCondition assign c w) :
    Gives Grows ((Op.ifElse.partialBy 1).build node args) g
      fun p g' => g'.Indicates assign (!(w == 0.0)) p := by
  have hchoose : Scalar.choose w 1.0 0.0 = (Scalar.truth (!(w == 0.0)) : Float) := by
    cases hw : w == 0.0 with
    | true => exact Scalar.choose_of_zero hw _ _
    | false => exact Scalar.choose_of_nonzero hw _ _
  refine (select_gives hg hargs hc (by decide)).weaken fun p g' _ hp => ?_
  exact ⟨hp.1, hchoose ▸ hp.2⟩

/-- The partial by the second branch indicates that the condition is a zero. -/
theorem secondPartial_gives (hg : g.WellFormed) (hargs : args[0]? = some c) {w : Float}
    (hc : g.IsCondition assign c w) :
    Gives Grows ((Op.ifElse.partialBy 2).build node args) g
      fun p g' => g'.Indicates assign (w == 0.0) p := by
  have hchoose : Scalar.choose w 0.0 1.0 = (Scalar.truth (w == 0.0) : Float) := by
    cases hw : w == 0.0 with
    | true => exact Scalar.choose_of_zero hw _ _
    | false => exact Scalar.choose_of_nonzero hw _ _
  refine .bind (literal_gives_node hg 1.0) fun _ g₁ hgrows _ => ?_
  refine (select_gives (hg.grows hgrows) hargs (hc.grows hg hgrows) (by decide)).weaken
    fun p g' _ hp => ?_
  exact ⟨hp.1, hchoose ▸ hp.2⟩

/-- An operand whose partial is a zero literal adds nothing. -/
theorem combine_skips {index : Nat} {rest : List Handle} {total : Option Handle}
    {Q : Handle → Graph → Prop}
    (hpartial : Gives Grows ((app.op.partialBy index).build node app.args) g
      fun p g' => g'.isZero p = true)
    (hrest : ∀ g', g.Grows g' → Gives Grows (combine node app (index + 1) rest total) g' Q) :
    Gives Grows (combine node app index (t :: rest) total) g Q := by
  rw [combine]
  refine .bind_eq (isZero_eq t g) ?_
  split
  · exact hrest g (refl g)
  refine .bind hpartial fun p g₁ hgrows hp => ?_
  refine .bind_eq (isZero_eq p g₁) ?_
  rw [if_pos hp]
  exact hrest g₁ hgrows

/-- The total with one term more. -/
def addTo (total : Option Handle) (term : Handle) : BuildM Handle :=
  match total with
  | some before => operation .add [before, term]
  | none => pure term

/-- An operand whose partial is an indicator adds its tangent weighted by it, unless that is a zero
literal. -/
theorem combine_weighs {index : Nat} {rest : List Handle} {total : Option Handle}
    {Q : Handle → Graph → Prop} (hg : g.WellFormed) (ht : g.HasValue assign t u)
    (hpartial : Gives Grows ((app.op.partialBy index).build node app.args) g
      fun p g' => g'.Indicates assign taken p)
    (hzero : isZeroLiteral u = true → Gives Grows (combine node app (index + 1) rest total) g Q)
    (hterm : ∀ term g', g.Grows g' → g'.IsTerm assign taken u term → Gives Grows
      (addTo total term >>= fun sum => combine node app (index + 1) rest (some sum)) g' Q) :
    Gives Grows (combine node app index (t :: rest) total) g Q := by
  rw [combine]
  refine .bind_eq (isZero_eq t g) ?_
  split
  · next hskip =>
    obtain ⟨v, hn, hv⟩ := isZero_iff.mp hskip
    exact hzero (ht.eq_of_lit hn ▸ hv)
  · next hkept =>
    refine .bind hpartial fun p g₁ hgrows₁ hp => ?_
    refine .bind_eq (isZero_eq p g₁) ?_
    obtain ⟨args, hn⟩ := hp.isChoice
    have hnonzero : g₁.isZero t = false :=
      (hgrows₁.extends.holds_eq Node.isZero ht.live).trans (Bool.eq_false_iff.mpr hkept)
    rw [isZero_of_not_lit (not_lit_of_app hn), if_neg (by decide)]
    refine .bind (mul_gives_term (hg.grows hgrows₁) hp (ht.grows hg hgrows₁) hnonzero)
      fun term g₂ hgrows₂ hnew => ?_
    have hrest := hterm term g₂ (hgrows₁.trans hgrows₂) hnew
    cases total <;> exact hrest

/-- The sum of two weighted numbers. -/
theorem add_gives (hg : g.WellFormed) {before term : Handle} {other : Bool} {v : Float}
    (hbefore : g.IsTerm assign taken u before) (hterm : g.IsTerm assign other v term) :
    Gives Grows (operation .add [before, term]) g fun d g' => ∃ s t,
      Weighs taken u s ∧ Weighs other v t ∧ g'.HasValue assign d (Float.add s t) := by
  obtain ⟨⟨app, hn⟩, s, hs, hweighs⟩ := hbefore
  obtain ⟨⟨app', hn'⟩, t, ht, hweighs'⟩ := hterm
  have hkeep : g.simplify .add [before, term] = .keep := by
    simp [simplify, isZero_of_not_lit (not_lit_of_app hn), isZero_of_not_lit (not_lit_of_app hn')]
  refine (operation_gives_node hg hkeep ⟨before, List.mem_cons_self, not_lit_of_app hn⟩).weaken
    fun d g' hgrows hd => ⟨s, t, hweighs, hweighs', ?_⟩
  exact hasValue_arranged (hg.grows hgrows) rfl hd (hs.grows hg hgrows)
    (ht.grows hg hgrows)

/-- The derivative of a choice follows the tangent of the branch that is taken. -/
theorem combine_follows {a b dc da db : Handle} {w va vb : Float} (hg : g.WellFormed)
    (hkeep : g.simplify .ifElse [c, a, b] = .keep) (hc : g.HasValue assign c w)
    (ha : g.HasValue assign da va) (hb : g.HasValue assign db vb) :
    Gives Grows (combine node ⟨.ifElse, [c, a, b]⟩ 0 [dc, da, db] none) g fun d g' =>
      ∃ vd, g'.HasValue assign d vd ∧
        Follows (Scalar.choose w va vb) (Scalar.choose w vb va) vd := by
  have hcondition := hc.isCondition hkeep
  refine combine_skips (conditionPartial_gives hg node _) fun g₁ hgrows₁ => ?_
  have hg₁ := hg.grows hgrows₁
  -- the second branch, with or without a term of the first one
  have hsecond : ∀ {g' : Graph} {total : Option Handle} {Q : Handle → Graph → Prop},
      g.Grows g' → (isZeroLiteral vb = true →
        Gives Grows (combine node ⟨.ifElse, [c, a, b]⟩ 3 [] total) g' Q) →
      (∀ term g'', g'.Grows g'' → g''.IsTerm assign (w == 0.0) vb term →
        Gives Grows (addTo total term) g'' Q) →
      Gives Grows (combine node ⟨.ifElse, [c, a, b]⟩ 2 [db] total) g' Q := by
    intro g' total Q hgrows hzero hterm
    have hg' := hg.grows hgrows
    refine combine_weighs hg' (hb.grows hg hgrows)
      (secondPartial_gives hg' rfl (hcondition.grows hg hgrows)) hzero
      fun term g'' hlater hnew => ?_
    exact .bind (hterm term g'' hlater hnew) fun sum g₃ _ hsum => .pure hsum
  refine combine_weighs hg₁ (ha.grows hg hgrows₁)
    (firstPartial_gives hg₁ rfl (hcondition.grows hg hgrows₁)) (fun hzero => ?_)
    fun term g₂ hgrows₂ hterm => ?_
  · refine hsecond hgrows₁ (fun hzero' => ?_) fun term g₂ hgrows₂ hterm => ?_
    · exact (literal_gives_node hg₁ 0.0).weaken fun d _ _ hd =>
        ⟨_, hasValue_lit hd, .choose_zeros hzero hzero'⟩
    · obtain ⟨t, ht, hweighs⟩ := hterm.value
      exact .pure ⟨t, ht, .choose_right hzero hweighs⟩
  · have hgrows := hgrows₁.trans hgrows₂
    change Gives Grows (combine node ⟨.ifElse, [c, a, b]⟩ 2 [db] (some term)) g₂ _
    refine hsecond hgrows (fun hzero => ?_) fun other g₃ hgrows₃ hother => ?_
    · obtain ⟨s, hs, hweighs⟩ := hterm.value
      exact .pure ⟨s, hs, .choose_left hweighs hzero⟩
    · have hg₂ := hg.grows hgrows
      exact (add_gives (hg₂.grows hgrows₃) (hterm.grows hg₂ hgrows₃) hother).weaken
        fun d g' _ ⟨s, t, hs, ht, hd⟩ => ⟨_, hd, .choose_add hs ht⟩

end BuildM

namespace DiffM

variable {w : Workspace} {node var c a b : Handle}

/-- What the chain rule makes of a node below which everything is known is the node that is known,
and nothing changes. -/
theorem combine_of_synced (hw : w.Synced) {app : Application}
    (hn : w.graph.node node = .ok (.app app)) (hknown : (node, var) ∈ w.memo.derivatives) :
    BuildM.combine node app 0 (app.args.map (w.memo.derivativeOf var)) none w.graph =
      .ok (w.memo.derivativeOf var node) w.graph := by
  have hg := hw.graph
  have hwhole := hw.replays hknown (Nat.lt_add_of_pos_right Nat.two_pos) w.graph hg (.refl _)
  rw [BuildM.differentiateBelow_succ hn] at hwhole
  have hargs : BuildM.Replays
      (app.args.mapM (BuildM.differentiateBelow var (w.graph.placeOf node + 1)))
      (app.args.map (w.memo.derivativeOf var)) w.graph :=
    BuildM.mapM_replays fun a ha =>
      hw.replays (hw.memo.closed hknown (argsOf_of_node hn ▸ ha))
        ((hg.earlier hn ha).trans (Nat.lt_succ_self _))
  exact (bind_of_ok (hargs w.graph hg (.refl _))).symm.trans hwhole

/-- The derivative of a choice with those of its branches: whatever the variables are, it follows
the derivative of the branch that is taken. -/
theorem derivative_of_choice (hw : w.Trusted) (hnormal : w.graph.Normal)
    (hn : w.graph.node node = .ok (.app ⟨.ifElse, [c, a, b]⟩)) (hvar : w.graph.IsVariable var) :
    ∃ d da db w', derivative node var w = .ok d w' ∧ derivative a var w' = .ok da w' ∧
      derivative b var w' = .ok db w' ∧ w'.Trusted ∧ w.graph.Grows w'.graph ∧
      ∀ assign condition va vb, w'.graph.HasValue assign c condition →
        w'.graph.HasValue assign da va → w'.graph.HasValue assign db vb →
        ∃ vd, w'.graph.HasValue assign d vd ∧
          Follows (Scalar.choose condition va vb) (Scalar.choose condition vb va) vd := by
  obtain ⟨d, w', hrun, -, hready, hsynced, hgrows, hmem⟩ := derivative_direct hw ⟨_, hn⟩ hvar
  have hn' := hgrows.extends.node_eq hn
  have hknown : (node, var) ∈ w'.memo.derivatives := (hmem _ _).mpr (.inr ⟨rfl, .refl node⟩)
  have hd : w'.memo.derivativeOf var node = d := by
    rw [Memo.derivativeOf, getElem?_of_derivative hrun, Option.getD_some]
  have hoperand : ∀ h ∈ [c, a, b],
      derivative h var w' = .ok (w'.memo.derivativeOf var h) w' := fun h hh =>
    derivative_of_knows (hready.graph.live hn' hh) (hgrows.extends.isVariable hvar)
      ⟨hsynced.current, Memo.getElem?_derivatives
        (hsynced.memo.closed hknown (argsOf_of_node hn' ▸ hh))⟩
  refine ⟨d, w'.memo.derivativeOf var a, w'.memo.derivativeOf var b, w', hrun,
    hoperand a (by simp), hoperand b (by simp), ⟨hready, hsynced.honest⟩, hgrows,
    fun assign condition va vb hc ha hb => ?_⟩
  have hkeep := (hnormal.grows hw.ready.graph hgrows).kept hn'
  have hcombine := combine_of_synced hsynced hn' hknown
  rw [hd] at hcombine
  exact (BuildM.combine_follows hready.graph hkeep hc ha hb d w'.graph hcombine).2

end DiffM

end ExprGraph
