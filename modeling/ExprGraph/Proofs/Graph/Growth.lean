import Mathlib
import ExprGraph.Derivative.Formula
import ExprGraph.Proofs.Outcome

/-!
# Growth

A graph changes in three ways between two clears: a variable is declared, a literal is looked up or
made, an application that no identity rewrites is looked up or made.  Whatever is built, by a call
that succeeds or by one that fails, is a sequence of such steps; so what a step preserves holds as
long as the graph is not cleared.
-/

namespace ExprGraph

namespace Graph

/-- The handle names a variable of the graph. -/
def IsVariable (g : Graph) (h : Handle) : Prop :=
  ∃ id name, g.node h = .ok (.var id name)

/-- A single change of a graph. -/
inductive Step (g : Graph) : Graph → Prop
  | declare (name : String) : Step g (g.declare name).2
  | literal (v : Float) : Step g (g.literal v).2
  /-- The operands are live, no identity applies to them, and they do not fold. -/
  | share {op : Op} {args : List Handle} (harity : args.length = op.arity)
      (hlive : ∀ a ∈ args, g.Live a) (hkeep : g.simplify op args = .keep)
      (hfold : g.folds = true → g.literalValues? args = none) :
      Step g (g.share ⟨op, op.arrange args⟩).2

/-- A graph grows into another by any number of steps. -/
def Grows : Graph → Graph → Prop := Relation.ReflTransGen Step

instance : IsPreorder Graph Grows :=
  inferInstanceAs (IsPreorder Graph (Relation.ReflTransGen Step))

theorem Step.grows {g g' : Graph} (hstep : g.Step g') : g.Grows g' :=
  Relation.ReflTransGen.single hstep

theorem Grows.trans {g g' g'' : Graph} (hfirst : g.Grows g') (hrest : g'.Grows g'') :
    g.Grows g'' :=
  Relation.ReflTransGen.trans hfirst hrest

theorem validate_eq_ok_iff {g : Graph} {hs : List Handle} :
    g.validate hs = .ok () ↔ ∀ h ∈ hs, g.Live h := by
  induction hs with
  | nil => simp [validate]
  | cons h rest ih =>
      cases hn : g.node h with
      | error e => simp [validate, hn, Live, bind, Except.bind]
      | ok n =>
          simp only [validate, hn, bind, Except.bind, List.forall_mem_cons]
          exact ih.trans (iff_and_self.mpr fun _ => ⟨n, hn⟩)

theorem variableAt_eq_ok {g : Graph} {h : Handle} (hvar : g.IsVariable h) :
    ∃ found, g.variableAt h = .ok found := by
  obtain ⟨id, name, hn⟩ := hvar
  exact ⟨(id, name), by simp [variableAt, hn, bind, Except.bind]⟩

theorem isVariable_of_variableAt {g : Graph} {h : Handle} {found : Nat × String}
    (hfound : g.variableAt h = .ok found) : g.IsVariable h := by
  cases hn : g.node h with
  | error e => simp [variableAt, hn, bind, Except.bind] at hfound
  | ok n =>
      cases n with
      | var id name => exact ⟨id, name, hn⟩
      | lit v => simp [variableAt, hn, bind, Except.bind] at hfound
      | app app => simp [variableAt, hn, bind, Except.bind] at hfound

theorem expectVariables_eq_ok_iff {g : Graph} {hs : List Handle} :
    g.expectVariables hs = .ok () ↔ ∀ h ∈ hs, g.IsVariable h := by
  induction hs with
  | nil => simp [expectVariables]
  | cons h rest ih =>
      cases hv : g.variableAt h with
      | error e =>
          have hnot : ¬ g.IsVariable h := by
            intro hvar
            obtain ⟨found, hfound⟩ := variableAt_eq_ok hvar
            rw [hv] at hfound
            cases hfound
          simp [expectVariables, hv, hnot, bind, Except.bind]
      | ok found =>
          have hvar := isVariable_of_variableAt hv
          simp only [expectVariables, hv, bind, Except.bind, List.forall_mem_cons]
          exact ih.trans (iff_and_self.mpr fun _ => hvar)

theorem IsVariable.live {g : Graph} {h : Handle} (hvar : g.IsVariable h) : g.Live h := by
  obtain ⟨id, name, hn⟩ := hvar
  exact ⟨_, hn⟩

theorem declareFrom_grows (g : Graph) (stem : String) (first count : Nat) :
    g.Grows (g.declareFrom stem first count).2 := by
  induction count generalizing g first with
  | zero => exact refl g
  | succ count ih =>
      exact (Step.declare (stem ++ toString first)).grows.trans (ih _ (first + 1))

theorem settle_grows {g : Graph} {op : Op} {args : List Handle} (harity : args.length = op.arity)
    (hlive : ∀ a ∈ args, g.Live a) (hkeep : g.simplify op args = .keep) :
    g.Grows (g.settle op args).2 := by
  unfold settle
  split
  · next values _ => exact (Step.literal _).grows
  · next hfold =>
    refine (Step.share harity hlive hkeep fun hfolds => ?_).grows
    rwa [if_pos hfolds] at hfold

/-- The identity of negation finds a node or does not apply. -/
theorem simplify_neg (g : Graph) (a : Handle) :
    (∃ b, g.simplify .neg [a] = .same b ∧ g.node a = .ok (.app ⟨.neg, [b]⟩)) ∨
      g.simplify .neg [a] = .keep := by
  simp only [simplify]
  split
  · next inner hn => exact .inl ⟨inner, rfl, hn⟩
  · exact .inr rfl

theorem negate_grows {g : Graph} {a : Handle} (hlive : g.Live a) :
    g.Grows (g.negate a).2 := by
  rcases g.simplify_neg a with ⟨b, hsame, -⟩ | hkeep
  · rw [negate, hsame]
    exact refl g
  · rw [negate, hkeep]
    exact settle_grows rfl (by simpa using hlive) hkeep

/-- The identities of the operators: what an application simplifies to, and when. -/
inductive Identity (g : Graph) : Op → List Handle → Simplified → Prop
  | zero_add {a b : Handle} : g.isZero a = true → Identity g .add [a, b] (.same b)
  | add_zero {a b : Handle} : g.isZero b = true → Identity g .add [a, b] (.same a)
  | sub_zero {a b : Handle} : g.isZero b = true → Identity g .sub [a, b] (.same a)
  | sub_self {a : Handle} : Identity g .sub [a, a] (.literal 0.0)
  | zero_sub {a b : Handle} : g.isZero a = true → Identity g .sub [a, b] (.negation b)
  | zero_mul {a b : Handle} : g.isZero a = true → Identity g .mul [a, b] (.literal 0.0)
  | mul_zero {a b : Handle} : g.isZero b = true → Identity g .mul [a, b] (.literal 0.0)
  | one_mul {a b : Handle} : g.isOne a = true → Identity g .mul [a, b] (.same b)
  | mul_one {a b : Handle} : g.isOne b = true → Identity g .mul [a, b] (.same a)
  | neg_one_mul {a b : Handle} : g.isNegOne a = true → Identity g .mul [a, b] (.negation b)
  | mul_neg_one {a b : Handle} : g.isNegOne b = true → Identity g .mul [a, b] (.negation a)
  | div_one {a b : Handle} : g.isOne b = true → Identity g .div [a, b] (.same a)
  | div_neg_one {a b : Handle} : g.isNegOne b = true → Identity g .div [a, b] (.negation a)
  | zero_div {a b : Handle} : g.isZero a = true → g.isZero b = false →
      Identity g .div [a, b] (.same a)
  | pow_zero {a b : Handle} : g.isZero b = true → Identity g .pow [a, b] (.literal 1.0)
  | pow_one {a b : Handle} : g.isOne b = true → Identity g .pow [a, b] (.same a)
  | neg_neg {a b : Handle} : g.node a = .ok (.app ⟨.neg, [b]⟩) → Identity g .neg [a] (.same b)
  | choose_self {c a : Handle} : Identity g .ifElse [c, a, a] (.same a)
  | choose_zero {c a b : Handle} {v : Float} : g.node c = .ok (.lit v) →
      isZeroLiteral v = true → Identity g .ifElse [c, a, b] (.same b)
  | choose_literal {c a b : Handle} {v : Float} : g.node c = .ok (.lit v) →
      isZeroLiteral v = false → Identity g .ifElse [c, a, b] (.same a)

theorem identity_of_simplify {g : Graph} {op : Op} {args : List Handle} {s : Simplified}
    (hsimplify : g.simplify op args = s) (hs : s ≠ .keep) : g.Identity op args s := by
  unfold simplify at hsimplify
  split at hsimplify
  case h_1 a b =>
    split_ifs at hsimplify with ha hb <;> subst hsimplify
    exacts [.zero_add ha, .add_zero hb, absurd rfl hs]
  case h_2 a b =>
    split_ifs at hsimplify with hb hab ha <;> subst hsimplify
    exacts [.sub_zero hb, hab ▸ .sub_self, .zero_sub ha, absurd rfl hs]
  case h_3 a b =>
    split_ifs at hsimplify with hzero ha hb ha' hb' <;> subst hsimplify
    · rcases (Bool.or_eq_true _ _).mp hzero with ha | hb
      · exact .zero_mul ha
      · exact .mul_zero hb
    exacts [.one_mul ha, .mul_one hb, .neg_one_mul ha', .mul_neg_one hb', absurd rfl hs]
  case h_4 a b =>
    split_ifs at hsimplify with hb hb' hzero <;> subst hsimplify
    · exact .div_one hb
    · exact .div_neg_one hb'
    · have hboth : g.isZero a = true ∧ g.isZero b = false := by simpa using hzero
      exact .zero_div hboth.1 hboth.2
    · exact absurd rfl hs
  case h_5 a b =>
    split_ifs at hsimplify with hzero hone <;> subst hsimplify
    exacts [.pow_zero hzero, .pow_one hone, absurd rfl hs]
  case h_6 a =>
    split at hsimplify <;> subst hsimplify
    · next hn => exact .neg_neg hn
    · exact absurd rfl hs
  case h_7 c a b =>
    split at hsimplify
    · next hab =>
      subst hsimplify hab
      exact .choose_self
    · split at hsimplify
      · next v hn =>
        split_ifs at hsimplify with hv <;> subst hsimplify
        · exact .choose_zero hn hv
        · exact .choose_literal hn (Bool.not_eq_true _ ▸ hv)
      · exact absurd hsimplify.symm hs
  case h_8 => exact absurd hsimplify.symm hs

/-- The node an identity negates is one of the operands. -/
theorem Identity.mem_of_negation {g : Graph} {op : Op} {args : List Handle} {a : Handle}
    (hidentity : g.Identity op args (.negation a)) : a ∈ args := by
  cases hidentity <;> simp

theorem build_grows {g : Graph} {op : Op} {args : List Handle} (harity : args.length = op.arity)
    (hlive : ∀ a ∈ args, g.Live a) : g.Grows (g.build op args).2 := by
  unfold build
  split
  · exact refl g
  · exact (Step.literal _).grows
  · next a hneg =>
    exact negate_grows (hlive a (identity_of_simplify hneg nofun).mem_of_negation)
  · next hkeep => exact settle_grows harity hlive hkeep

end Graph

namespace BuildM

open ExprGraph.Graph

theorem inspect_eq {α : Type} {f : Graph → Except GraphError α} {g : Graph} {a : α}
    (hf : f g = .ok a) : inspect f g = .ok a g := by
  rw [inspect, hf]

theorem inspect_eq_error {α : Type} {f : Graph → Except GraphError α} {g : Graph} {e : GraphError}
    (hf : f g = .error e) : inspect f g = .error (.refused e) g := by
  rw [inspect, hf]

theorem inspect_keeps {R : Graph → Graph → Prop} [IsPreorder Graph R] {α : Type}
    (f : Graph → Except GraphError α) : Keeps R (inspect f) := by
  intro g
  unfold endState inspect
  cases f g <;> exact refl g

theorem extend_keeps {α : Type} {f : Graph → α × Graph} (hf : ∀ g : Graph, g.Grows (f g).2) :
    Keeps Grows (extend f) :=
  hf

theorem literal_keeps (v : Float) : Keeps Grows (literal v) :=
  extend_keeps fun _ => (Step.literal v).grows

/-- An application of the right number of live operands is built. -/
theorem operation_eq {op : Op} {args : List Handle} {g : Graph} (harity : args.length = op.arity)
    (hlive : ∀ a ∈ args, g.Live a) :
    operation op args g = .ok (g.build op args).1 (g.build op args).2 := by
  have hcheck : inspect (fun g => g.validate args) g = .ok () g := by
    rw [inspect, validate_eq_ok_iff.mpr hlive]
  rw [operation, if_neg (not_not.mpr harity), bind_of_ok hcheck]
  rfl

/-- An application is refused before anything is done, or else it is one that can be built. -/
theorem operation_cases (op : Op) (args : List Handle) (g : Graph) :
    (∃ e, operation op args g = .error (.refused e) g) ∨
      (args.length = op.arity ∧ (∀ a ∈ args, g.Live a) ∧
        operation op args g = .ok (g.build op args).1 (g.build op args).2) := by
  by_cases harity : args.length = op.arity
  · cases hv : g.validate args with
    | error e =>
        have hcheck : inspect (fun g => g.validate args) g = .error (.refused e) g := by
          rw [inspect, hv]
        refine .inl ⟨e, ?_⟩
        rw [operation, if_neg (not_not.mpr harity)]
        exact bind_of_error hcheck
    | ok done =>
        have hlive := validate_eq_ok_iff.mp hv
        exact .inr ⟨harity, hlive, operation_eq harity hlive⟩
  · refine .inl ⟨.arityMismatch op args.length, ?_⟩
    rw [operation, if_pos harity]
    rfl

theorem operation_keeps (op : Op) (args : List Handle) : Keeps Grows (operation op args) := by
  intro g
  rcases operation_cases op args g with ⟨e, hrefused⟩ | ⟨harity, hlive, hrun⟩
  · rw [endState_of_error hrefused]
    exact refl g
  · rw [endState_of_ok hrun]
    exact build_grows harity hlive

theorem powLiteral_keeps (a : Handle) (exponent : Float) : Keeps Grows (powLiteral a exponent) :=
  .bind (literal_keeps exponent) fun e => operation_keeps .pow [a, e]

theorem scale_keeps (factor : Float) (a : Handle) : Keeps Grows (scale factor a) :=
  .bind (literal_keeps factor) fun c => operation_keeps .mul [c, a]

theorem sum_keeps (terms : List Handle) : Keeps Grows (sum terms) := by
  cases terms with
  | nil => exact literal_keeps 0.0
  | cons first rest =>
      exact .bind (inspect_keeps _) fun _ =>
        .foldlM (fun total term => operation_keeps .add [total, term]) rest first

theorem product_keeps (factors : List Handle) : Keeps Grows (product factors) := by
  cases factors with
  | nil => exact literal_keeps 1.0
  | cons first rest =>
      exact .bind (inspect_keeps _) fun _ =>
        .foldlM (fun total factor => operation_keeps .mul [total, factor]) rest first

theorem dot_keeps (left right : List Handle) : Keeps Grows (dot left right) := by
  unfold dot
  split
  · exact fun g => refl g
  · exact .bind (.mapM (fun ⟨a, b⟩ => operation_keeps .mul [a, b]) _) fun terms =>
      sum_keeps terms

end BuildM

end ExprGraph
