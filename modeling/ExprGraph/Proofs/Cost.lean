import Mathlib
import ExprGraph.Proofs.Outcome

/-!
# Cost of stateful work

Work that raises a measure of its state, such as the number of nodes of a graph, pays for the rise
out of a credit.  The credit covers the rise wherever the work ends.  What is left of it when the
work succeeds may depend on the result, so a piece of work can pay in advance for what its result
will cost later on.
-/

namespace ExprGraph

universe u v

variable {ε σ α β : Type u} {γ : Type v}

/-- The credit covers what the work adds to a measure of the state, and of a successful run so much
is left.  The state stays related to the one the work started from. -/
structure Affords (R : σ → σ → Prop) (μ : σ → ℕ) (credit : ℕ) (x : EStateM ε σ α) (s : σ)
    (left : α → ℕ) : Prop where
  related : R s (endState x s)
  covered : μ (endState x s) ≤ μ s + credit
  remains {a : α} {s' : σ} : x s = .ok a s' → μ s' + left a ≤ μ s + credit

/-- The work adds no more to a measure of the state than is stated, wherever it ends. -/
abbrev Costs (R : σ → σ → Prop) (μ : σ → ℕ) (credit : ℕ) (x : EStateM ε σ α) (s : σ) : Prop :=
  Affords R μ credit x s fun _ => 0

namespace Affords

variable {R : σ → σ → Prop} {μ ν : σ → ℕ} {credit credit' : ℕ} {x : EStateM ε σ α} {s : σ}
  {left left' : α → ℕ}

theorem of_ok {a : α} {s' : σ} (hx : x s = .ok a s') (hR : R s s')
    (hle : μ s' + left a ≤ μ s + credit) : Affords R μ credit x s left where
  related := (endState_of_ok hx).symm ▸ hR
  covered := by
    rw [endState_of_ok hx]
    omega
  remains hx' := by
    cases hx.symm.trans hx'
    exact hle

theorem of_error {e : ε} {s' : σ} (hx : x s = .error e s') (hR : R s s')
    (hle : μ s' ≤ μ s + credit) : Affords R μ credit x s left where
  related := (endState_of_error hx).symm ▸ hR
  covered := (endState_of_error hx).symm ▸ hle
  remains hx' := nomatch hx.symm.trans hx'

/-- More credit may be given than is needed, and what is added to it may be left over. -/
theorem trade (hx : Affords R μ credit x s left) (hcredit : credit ≤ credit')
    (hleft : ∀ a, left' a + credit ≤ left a + credit') : Affords R μ credit' x s left' where
  related := hx.related
  covered := hx.covered.trans (by omega)
  remains {a _} hrun := by
    have hrest := hx.remains hrun
    have hmore := hleft a
    omega

/-- A measure with a share of potential in it, which is small at the start. -/
theorem of_potential (hx : Affords R ν credit x s left) (hle : ∀ s', μ s' ≤ ν s')
    (hstart : ν s + credit ≤ μ s + credit') : Affords R μ credit' x s left where
  related := hx.related
  covered := (hle _).trans (hx.covered.trans hstart)
  remains {_ s'} hrun := by
    have hrest := hx.remains hrun
    have hmeasure := hle s'
    omega

/-- Work that keeps a relation, when nothing is measured. -/
theorem of_keeps (hx : Keeps R x) : Costs R (fun _ => 0) 0 x s :=
  ⟨hx s, le_rfl, fun _ => le_rfl⟩

variable [IsPreorder σ R]

theorem pure {a : α} (hle : left a ≤ credit) :
    Affords R μ credit (Pure.pure a : EStateM ε σ α) s left :=
  of_ok rfl (refl s) (Nat.add_le_add_left hle _)

/-- Work that leaves the state alone costs nothing. -/
theorem of_keeps_eq (hx : Keeps Eq x) : Costs R μ 0 x s where
  related := hx s ▸ refl s
  covered := (congrArg μ (hx s)).ge
  remains hrun := by
    have hsame := hx s
    rw [endState_of_ok hrun] at hsame
    exact (congrArg μ hsame).ge

theorem bind {f : α → EStateM ε σ β} {rest : β → ℕ} (hx : Affords R μ credit x s left)
    (hf : ∀ a s', x s = .ok a s' → R s s' → Affords R μ (left a) (f a) s' rest) :
    Affords R μ credit (x >>= f) s rest := by
  cases hrun : x s with
  | error e s' =>
      have hend := endState_of_error hrun
      exact of_error (bind_of_error hrun) (hend ▸ hx.related) (hend ▸ hx.covered)
  | ok a s' =>
      have hR : R s s' := endState_of_ok hrun ▸ hx.related
      have hpaid := hx.remains hrun
      have hnext := hf a s' hrun hR
      have hend : endState (x >>= f) s = endState (f a) s' := by
        rw [endState, bind_of_ok hrun, endState]
      refine ⟨hend ▸ Trans.trans hR hnext.related, ?_, fun hbind => ?_⟩
      · rw [hend]
        exact hnext.covered.trans hpaid
      · exact (hnext.remains ((bind_of_ok hrun).symm.trans hbind)).trans hpaid

/-- The price of the first step is paid, and the rest of the credit goes to what follows. -/
theorem bind_costs {price rest : ℕ} {f : α → EStateM ε σ β} {left : β → ℕ}
    (hx : Costs R μ price x s) (hcredit : price + rest ≤ credit)
    (hf : ∀ a s', x s = .ok a s' → R s s' → Affords R μ rest (f a) s' left) :
    Affords R μ credit (x >>= f) s left := by
  have hpaid : Affords R μ credit x s fun _ => rest :=
    hx.trade (by omega) fun _ => by omega
  exact hpaid.bind hf

/-- A first step that leaves the state alone. -/
theorem bind_of_keeps_eq {f : α → EStateM ε σ β} {rest : β → ℕ} (hx : Keeps Eq x)
    (hf : ∀ a, x s = .ok a s → Affords R μ credit (f a) s rest) :
    Affords R μ credit (x >>= f) s rest := by
  have hread : Affords R μ credit x s fun _ => credit :=
    (of_keeps_eq hx).trade (Nat.zero_le _) fun _ => by omega
  refine hread.bind fun a s' hrun _ => ?_
  obtain rfl : s = s' := (hx s).trans (endState_of_ok hrun)
  exact hf a hrun

/-- A fold whose steps take from the credit before them to that after them.  Steps may rely on what
comes before and after them in the list. -/
theorem foldlM {f : β → γ → EStateM ε σ β} {cs : List γ} (credit : List γ → β → ℕ)
    (hstep : ∀ passed c left, cs = passed ++ c :: left → ∀ b s', R s s' →
      Affords R μ (credit (c :: left) b) (f b c) s' (credit left)) (b : β) :
    Affords R μ (credit cs b) (cs.foldlM f b) s (credit []) := by
  have hrest : ∀ left passed b s', cs = passed ++ left → R s s' →
      Affords R μ (credit left b) (left.foldlM f b) s' (credit []) := by
    intro left
    induction left with
    | nil =>
        intro passed b s' _ _
        rw [List.foldlM_nil]
        exact pure le_rfl
    | cons c left ih =>
        intro passed b s' hsplit hR
        rw [List.foldlM_cons]
        exact bind (hstep passed c left hsplit b s' hR) fun b' s'' _ hR' =>
          ih (passed ++ [c]) b' s'' (by simpa using hsplit) (Trans.trans hR hR')
  exact hrest cs [] b s rfl (refl s)

/-- A fold whose steps cost the same each. -/
theorem foldlM_const {f : β → γ → EStateM ε σ β} {cs : List γ} {price : ℕ}
    (hstep : ∀ c ∈ cs, ∀ b s', R s s' → Costs R μ price (f b c) s') (b : β) :
    Costs R μ (price * cs.length) (cs.foldlM f b) s := by
  refine foldlM (fun cs _ => price * cs.length) (fun passed c left hsplit b s' hR => ?_) b
  have hc : c ∈ cs := hsplit ▸ List.mem_append_right _ List.mem_cons_self
  refine (hstep c hc b s' hR).trade ?_ fun _ => ?_ <;>
    rw [List.length_cons, Nat.mul_succ] <;> omega

/-- A loop whose steps cost the same each. -/
theorem forM_const {f : γ → EStateM ε σ PUnit} {cs : List γ} {price : ℕ}
    (hstep : ∀ c ∈ cs, ∀ s', R s s' → Costs R μ price (f c) s') :
    Costs R μ (price * cs.length) (cs.forM f) s := by
  induction cs generalizing s with
  | nil => exact pure (Nat.zero_le _)
  | cons c rest ih =>
      obtain ⟨hhead, hrest⟩ := List.forall_mem_cons.mp hstep
      have hfirst : Affords R μ (price * (c :: rest).length) (f c) s fun _ =>
          price * rest.length := by
        refine (hhead s (refl s)).trade ?_ fun _ => ?_ <;>
          rw [List.length_cons, Nat.mul_succ] <;> omega
      exact hfirst.bind fun _ s' _ hR =>
        ih fun d hd s'' hR' => hrest d hd s'' (Trans.trans hR hR')

end Affords

end ExprGraph
