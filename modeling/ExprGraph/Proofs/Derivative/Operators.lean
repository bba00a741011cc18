import Mathlib
import ExprGraph.Derivative.Rule
import ExprGraph.Proofs.Graph.WellFormed

/-!
# Operators that are added

Building a formula makes applications of the operators it names, and negations, which identities of
products and differences put in their place.  Of any other operator there are afterwards the
applications there were.  The rules of differentiation name the logarithm in one place: where a
power is differentiated by its exponent.
-/

namespace ExprGraph

/-- The operators that a formula names. -/
def Formula.operators : Formula → List Op
  | self | operand _ | literal _ => []
  | unary op a => op :: a.operators
  | binary op a b => op :: (a.operators ++ b.operators)
  | select c a b => .ifElse :: (c.operators ++ (a.operators ++ b.operators))
  | after first second => first.operators ++ second.operators

/-- A logarithm is built for a power and its exponent, and for nothing else. -/
theorem Op.eq_pow_of_ln_mem_partialBy {op : Op} {index : Nat}
    (hln : .ln ∈ (op.partialBy index).operators) : op = .pow ∧ index ≠ 0 := by
  cases op <;> simp only [Op.partialBy] at hln <;> (try split at hln) <;>
    simp_all [Formula.operators, Formula.square, Formula.coLeg]

namespace Graph

/-- No application of an operator has been added. -/
def AddsNo (op : Op) (g g' : Graph) : Prop :=
  ∀ h args, g'.node h = .ok (.app ⟨op, args⟩) → g.node h = .ok (.app ⟨op, args⟩)

instance (op : Op) : IsPreorder Graph (AddsNo op) where
  refl _ _ _ hn := hn
  trans _ _ _ hfirst hrest := fun h args hn => hfirst h args (hrest h args hn)

variable {op : Op}

theorem push_addsNo (g : Graph) {n : Node} (hother : ∀ args, n ≠ .app ⟨op, args⟩) :
    g.AddsNo op (g.push n).2 := by
  intro h args hn
  rcases node_push_iff.mp hn with hold | ⟨-, hnew⟩
  · exact hold
  · exact absurd hnew (hother args)

theorem declareFrom_addsNo (g : Graph) (stem : String) (first count : Nat) :
    g.AddsNo op (g.declareFrom stem first count).2 := by
  induction count generalizing g first with
  | zero => exact refl g
  | succ count ih =>
      have hone : g.AddsNo op (g.declare (stem ++ toString first)).2 := g.push_addsNo (by simp)
      exact Trans.trans hone (ih (g.declare (stem ++ toString first)).2 (first + 1))

theorem literal_addsNo (g : Graph) (v : Float) : g.AddsNo op (g.literal v).2 := by
  unfold Graph.literal
  split
  · exact refl g
  · exact g.push_addsNo (by simp)

theorem share_addsNo (g : Graph) {app : Application} (hother : app.op ≠ op) :
    g.AddsNo op (g.share app).2 := by
  unfold Graph.share
  split
  · exact refl g
  · refine g.push_addsNo fun args heq => hother ?_
    rw [Node.app.inj heq]

theorem settle_addsNo (g : Graph) {made : Op} (hother : made ≠ op) (args : List Handle) :
    g.AddsNo op (g.settle made args).2 := by
  unfold settle
  split
  · exact g.literal_addsNo _
  · exact g.share_addsNo hother

theorem negate_addsNo (g : Graph) (hneg : op ≠ .neg) (a : Handle) :
    g.AddsNo op (g.negate a).2 := by
  unfold negate
  split
  · exact refl g
  · exact g.settle_addsNo hneg.symm [a]

/-- An application may turn into a negation, but into no other operator. -/
theorem build_addsNo (g : Graph) (hneg : op ≠ .neg) {made : Op} (hother : made ≠ op)
    (args : List Handle) : g.AddsNo op (g.build made args).2 := by
  unfold build
  split
  · exact refl g
  · exact g.literal_addsNo _
  · exact g.negate_addsNo hneg _
  · exact g.settle_addsNo hother args

end Graph

namespace BuildM

open ExprGraph.Graph

variable {op : Op}

theorem operation_addsNo (hneg : op ≠ .neg) {made : Op} (hother : made ≠ op)
    (args : List Handle) : Keeps (AddsNo op) (operation made args) := by
  intro g
  rcases operation_cases made args g with ⟨e, hrefused⟩ | ⟨-, -, hrun⟩
  · rw [endState_of_error hrefused]
    exact refl g
  · rw [endState_of_ok hrun]
    exact g.build_addsNo hneg hother args

theorem sum_addsNo (hneg : op ≠ .neg) (hadd : .add ≠ op) (terms : List Handle) :
    Keeps (AddsNo op) (sum terms) := by
  cases terms with
  | nil => exact fun g => g.literal_addsNo 0.0
  | cons first rest =>
      exact .bind (inspect_keeps _) fun _ =>
        .foldlM (fun total term => operation_addsNo hneg hadd [total, term]) rest first

/-- Building a formula adds applications of the operators it names only. -/
theorem formula_addsNo (hneg : op ≠ .neg) (node : Handle) (args : List Handle) (f : Formula)
    (hother : ∀ made ∈ f.operators, made ≠ op) : Keeps (AddsNo op) (f.build node args) := by
  induction f with
  | self => exact .pure node
  | operand index =>
      rw [Formula.build]
      split
      · exact .pure _
      · exact fun g => refl g
  | literal v => exact fun g => g.literal_addsNo v
  | unary made a iha =>
      obtain ⟨hmade, ha⟩ := List.forall_mem_cons.mp hother
      exact .bind (iha ha) fun a => operation_addsNo hneg hmade [a]
  | binary made a b iha ihb =>
      obtain ⟨hmade, hrest⟩ := List.forall_mem_cons.mp hother
      obtain ⟨ha, hb⟩ := List.forall_mem_append.mp hrest
      exact .bind (iha ha) fun a => .bind (ihb hb) fun b => operation_addsNo hneg hmade [a, b]
  | select c a b ihc iha ihb =>
      obtain ⟨hmade, hrest⟩ := List.forall_mem_cons.mp hother
      obtain ⟨hc, hrest⟩ := List.forall_mem_append.mp hrest
      obtain ⟨ha, hb⟩ := List.forall_mem_append.mp hrest
      exact .bind (ihc hc) fun c => .bind (iha ha) fun a => .bind (ihb hb) fun b =>
        operation_addsNo hneg hmade [c, a, b]
  | after first second ihfirst ihsecond =>
      obtain ⟨hfirst, hsecond⟩ := List.forall_mem_append.mp hother
      exact .bind (ihfirst hfirst) fun _ => ihsecond hsecond

end BuildM

end ExprGraph
