import Mathlib
import ExprGraph.Error

/-!
# Outcomes of stateful work

Work on a graph or a memo may fail, and its state stays as it has become.  Two kinds of statement
cover both outcomes: that the work succeeds with a result of some kind, and that wherever it ends
the state is related to the one it started from.  Both are closed under sequencing, for any
preorder on states.  Work without a state that has succeeded is taken apart step by step.
-/

namespace ExprGraph

universe u v

variable {ε σ α β : Type u} {γ : Type v}

/-- The work succeeds from a state, ends in a related one, and its result is as stated. -/
def Succeeds (R : σ → σ → Prop) (x : EStateM ε σ α) (s : σ) (Q : α → σ → Prop) : Prop :=
  ∃ a s', x s = .ok a s' ∧ R s s' ∧ Q a s'

/-- If the work succeeds from a state, it ends in a related one and its result is as stated. -/
def Gives (R : σ → σ → Prop) (x : EStateM ε σ α) (s : σ) (Q : α → σ → Prop) : Prop :=
  ∀ a s', x s = .ok a s' → R s s' ∧ Q a s'

/-- The state that work ends in, whether it succeeds or fails. -/
def endState (x : EStateM ε σ α) (s : σ) : σ :=
  match x s with
  | .ok _ s' => s'
  | .error _ s' => s'

/-- The work ends in a related state, from wherever it starts. -/
def Keeps (R : σ → σ → Prop) (x : EStateM ε σ α) : Prop :=
  ∀ s, R s (endState x s)

theorem bind_of_ok {x : EStateM ε σ α} {f : α → EStateM ε σ β} {s s' : σ} {a : α}
    (hx : x s = .ok a s') : (x >>= f) s = f a s' := by
  change EStateM.bind x f s = f a s'
  rw [EStateM.bind, hx]

theorem bind_of_error {x : EStateM ε σ α} {f : α → EStateM ε σ β} {s s' : σ} {e : ε}
    (hx : x s = .error e s') : (x >>= f) s = .error e s' := by
  change EStateM.bind x f s = .error e s'
  rw [EStateM.bind, hx]

/-- Two pieces of work that end well one after the other have both ended well. -/
theorem exists_of_bind_ok {x : EStateM ε σ α} {f : α → EStateM ε σ β} {s s'' : σ} {b : β}
    (hbind : (x >>= f) s = .ok b s'') : ∃ a s', x s = .ok a s' ∧ f a s' = .ok b s'' := by
  cases hx : x s with
  | ok a s' => exact ⟨a, s', rfl, (bind_of_ok hx).symm.trans hbind⟩
  | error e s' => cases (bind_of_error hx).symm.trans hbind

/-- There are as many results as elements. -/
theorem length_of_mapM_ok {f : γ → EStateM ε σ β} {cs : List γ} {bs : List β} {s s' : σ}
    (hrun : cs.mapM f s = .ok bs s') : bs.length = cs.length := by
  induction cs generalizing bs s with
  | nil =>
      rw [List.mapM_nil] at hrun
      cases hrun
      rfl
  | cons c rest ih =>
      rw [List.mapM_cons] at hrun
      obtain ⟨b, s₁, -, hrest⟩ := exists_of_bind_ok hrun
      obtain ⟨bs', s₂, hmap, hpure⟩ := exists_of_bind_ok hrest
      cases hpure
      rw [List.length_cons, List.length_cons, ih hmap]

/-- A loop over two lists is a loop over the one and then over the other. -/
theorem forM_append_of_ok {f : γ → EStateM ε σ PUnit} {cs ds : List γ} {s s' s'' : σ}
    (hcs : cs.forM f s = .ok .unit s') (hds : ds.forM f s' = .ok .unit s'') :
    (cs ++ ds).forM f s = .ok .unit s'' := by
  induction cs generalizing s with
  | nil =>
      cases hcs
      exact hds
  | cons c rest ih =>
      obtain ⟨_, s₁, hc, hrest⟩ := exists_of_bind_ok hcs
      exact (bind_of_ok hc).trans (ih hrest)

theorem endState_of_ok {x : EStateM ε σ α} {s s' : σ} {a : α} (hx : x s = .ok a s') :
    endState x s = s' := by
  rw [endState, hx]

theorem endState_of_error {x : EStateM ε σ α} {s s' : σ} {e : ε} (hx : x s = .error e s') :
    endState x s = s' := by
  rw [endState, hx]

namespace Succeeds

variable {R : σ → σ → Prop} {Q : α → σ → Prop}

theorem weaken {P : α → σ → Prop} {x : EStateM ε σ α} {s : σ} (hx : Succeeds R x s P)
    (hPQ : ∀ a s', R s s' → P a s' → Q a s') : Succeeds R x s Q := by
  obtain ⟨a, s', hrun, hR, hP⟩ := hx
  exact ⟨a, s', hrun, hR, hPQ a s' hR hP⟩

theorem of_eq {x : EStateM ε σ α} {s s' : σ} {a : α} (hx : x s = .ok a s') (hR : R s s')
    (hQ : Q a s') : Succeeds R x s Q :=
  ⟨a, s', hx, hR, hQ⟩

theorem endState_related {x : EStateM ε σ α} {s : σ} (hx : Succeeds R x s Q) :
    R s (endState x s) := by
  obtain ⟨a, s', hrun, hR, -⟩ := hx
  rw [endState_of_ok hrun]
  exact hR

/-- A first step that leaves the state alone. -/
theorem bind_eq {x : EStateM ε σ β} {f : β → EStateM ε σ α} {s : σ} {b : β}
    (hx : x s = .ok b s) (hf : Succeeds R (f b) s Q) : Succeeds R (x >>= f) s Q := by
  obtain ⟨a, s', hrun, hR, hQ⟩ := hf
  exact ⟨a, s', (bind_of_ok hx).trans hrun, hR, hQ⟩

variable [IsPreorder σ R]

theorem pure {a : α} {s : σ} (hQ : Q a s) :
    Succeeds R (Pure.pure a : EStateM ε σ α) s Q :=
  ⟨a, s, rfl, refl s, hQ⟩

theorem bind {P : β → σ → Prop} {x : EStateM ε σ β} {f : β → EStateM ε σ α} {s : σ}
    (hx : Succeeds R x s P)
    (hf : ∀ b s', R s s' → P b s' → Succeeds R (f b) s' Q) : Succeeds R (x >>= f) s Q := by
  obtain ⟨b, s₁, hrun, hR₁, hP⟩ := hx
  obtain ⟨a, s₂, hnext, hR₂, hQ⟩ := hf b s₁ hR₁ hP
  exact ⟨a, s₂, (bind_of_ok hrun).trans hnext, Trans.trans hR₁ hR₂, hQ⟩

/-- Work on every element of a list succeeds when the work on each of them does, from any later
state; what is said of a result must survive later work. -/
theorem mapM {Q : γ → β → σ → Prop} {f : γ → EStateM ε σ β}
    (hstable : ∀ c b s s', R s s' → Q c b s → Q c b s') (cs : List γ) (s : σ)
    (hf : ∀ c ∈ cs, ∀ s', R s s' → Succeeds R (f c) s' (Q c)) :
    Succeeds R (cs.mapM f) s fun bs s' => List.Forall₂ (fun c b => Q c b s') cs bs := by
  induction cs generalizing s with
  | nil =>
      rw [List.mapM_nil]
      exact pure List.Forall₂.nil
  | cons c rest ih =>
      rw [List.mapM_cons]
      refine bind (hf c List.mem_cons_self s (refl s)) fun b s₁ hs₁ hb => ?_
      refine bind (ih s₁ fun d hd s' hs' =>
        hf d (List.mem_cons_of_mem c hd) s' (Trans.trans hs₁ hs')) fun bs s₂ hs₂ hbs => ?_
      exact pure (List.Forall₂.cons (hstable c b s₁ s₂ hs₂ hb) hbs)

/-- A fold succeeds when every step leads from what is said of the elements passed and left before
it to what is said of them after it. -/
theorem foldlM {Q : List γ → List γ → β → σ → Prop} {f : β → γ → EStateM ε σ β} {cs : List γ}
    (hstep : ∀ passed c left b s, cs = passed ++ c :: left → Q passed (c :: left) b s →
      Succeeds R (f b c) s (Q (passed ++ [c]) left))
    {b : β} {s : σ} (hstart : Q [] cs b s) : Succeeds R (cs.foldlM f b) s (Q cs []) := by
  have hrest : ∀ left passed b s, cs = passed ++ left → Q passed left b s →
      Succeeds R (left.foldlM f b) s (Q cs []) := by
    intro left
    induction left with
    | nil =>
        intro passed b s hsplit hQ
        obtain rfl : cs = passed := hsplit.trans (List.append_nil passed)
        rw [List.foldlM_nil]
        exact pure hQ
    | cons c left ih =>
        intro passed b s hsplit hQ
        rw [List.foldlM_cons]
        exact bind (hstep passed c left b s hsplit hQ) fun b' s' _ hQ' =>
          ih (passed ++ [c]) b' s' (by rw [hsplit, List.append_assoc, List.singleton_append]) hQ'
  exact hrest cs [] b s rfl hstart

/-- The same of a loop, which has no result. -/
theorem forM {Q : List γ → List γ → σ → Prop} {f : γ → EStateM ε σ PUnit} {cs : List γ}
    (hstep : ∀ passed c left s, cs = passed ++ c :: left → Q passed (c :: left) s →
      Succeeds R (f c) s fun _ => Q (passed ++ [c]) left)
    {s : σ} (hstart : Q [] cs s) : Succeeds R (cs.forM f) s fun _ => Q cs [] := by
  have hrest : ∀ left passed s, cs = passed ++ left → Q passed left s →
      Succeeds R (left.forM f) s fun _ => Q cs [] := by
    intro left
    induction left with
    | nil =>
        intro passed s hsplit hQ
        obtain rfl : cs = passed := hsplit.trans (List.append_nil passed)
        exact pure hQ
    | cons c left ih =>
        intro passed s hsplit hQ
        exact bind (hstep passed c left s hsplit hQ) fun _ s' _ hQ' =>
          ih (passed ++ [c]) s' (by rw [hsplit, List.append_assoc, List.singleton_append]) hQ'
  exact hrest cs [] s rfl hstart

end Succeeds

theorem Succeeds.gives {R : σ → σ → Prop} {Q : α → σ → Prop} {x : EStateM ε σ α} {s : σ}
    (hx : Succeeds R x s Q) : Gives R x s Q := by
  obtain ⟨a, s', hrun, hR, hQ⟩ := hx
  intro b s'' hrun'
  cases hrun.symm.trans hrun'
  exact ⟨hR, hQ⟩

namespace Gives

variable {R : σ → σ → Prop} {Q : α → σ → Prop}

/-- Work that fails gives nothing. -/
theorem of_error {x : EStateM ε σ α} {s s' : σ} {e : ε} (hx : x s = .error e s') :
    Gives R x s Q := by
  intro a s'' hrun
  cases hx.symm.trans hrun

theorem weaken {P : α → σ → Prop} {x : EStateM ε σ α} {s : σ} (hx : Gives R x s P)
    (hPQ : ∀ a s', R s s' → P a s' → Q a s') : Gives R x s Q := by
  intro a s' hrun
  obtain ⟨hR, hP⟩ := hx a s' hrun
  exact ⟨hR, hPQ a s' hR hP⟩

theorem imp {R' : σ → σ → Prop} {x : EStateM ε σ α} {s : σ} (hx : Gives R x s Q)
    (hR : ∀ s', R s s' → R' s s') : Gives R' x s Q :=
  fun a s' hrun => ⟨hR s' (hx a s' hrun).1, (hx a s' hrun).2⟩

/-- A first step that leaves the state alone. -/
theorem bind_eq {x : EStateM ε σ β} {f : β → EStateM ε σ α} {s : σ} {b : β}
    (hx : x s = .ok b s) (hf : Gives R (f b) s Q) : Gives R (x >>= f) s Q :=
  fun a s' hrun => hf a s' ((bind_of_ok hx).symm.trans hrun)

variable [IsPreorder σ R]

theorem pure {a : α} {s : σ} (hQ : Q a s) : Gives R (Pure.pure a : EStateM ε σ α) s Q :=
  (Succeeds.pure hQ).gives

theorem bind {P : β → σ → Prop} {x : EStateM ε σ β} {f : β → EStateM ε σ α} {s : σ}
    (hx : Gives R x s P) (hf : ∀ b s', R s s' → P b s' → Gives R (f b) s' Q) :
    Gives R (x >>= f) s Q := by
  intro a s' hrun
  obtain ⟨b, s₁, hfirst, hnext⟩ := exists_of_bind_ok hrun
  obtain ⟨hR₁, hP⟩ := hx b s₁ hfirst
  obtain ⟨hR₂, hQ⟩ := hf b s₁ hR₁ hP a s' hnext
  exact ⟨Trans.trans hR₁ hR₂, hQ⟩

/-- Work on every element of a list gives what the work on each of them does, from any later state;
what is said of a result must survive later work. -/
theorem mapM {Q : γ → β → σ → Prop} {f : γ → EStateM ε σ β}
    (hstable : ∀ c b s s', R s s' → Q c b s → Q c b s') {cs : List γ} {s : σ}
    (hf : ∀ c ∈ cs, ∀ s', R s s' → Gives R (f c) s' (Q c)) :
    Gives R (cs.mapM f) s fun bs s' => List.Forall₂ (fun c b => Q c b s') cs bs := by
  induction cs generalizing s with
  | nil =>
      rw [List.mapM_nil]
      exact pure List.Forall₂.nil
  | cons c rest ih =>
      rw [List.mapM_cons]
      refine bind (hf c List.mem_cons_self s (refl s)) fun b s₁ hs₁ hb => ?_
      refine bind (ih fun d hd s' hs' =>
        hf d (List.mem_cons_of_mem c hd) s' (Trans.trans hs₁ hs')) fun bs s₂ hs₂ hbs => ?_
      exact pure (List.Forall₂.cons (hstable c b s₁ s₂ hs₂ hb) hbs)

/-- A fold gives what every step of it keeps. -/
theorem foldlM {P : β → σ → Prop} {f : β → γ → EStateM ε σ β} {cs : List γ}
    (hstep : ∀ c ∈ cs, ∀ b s, P b s → Gives R (f b c) s P) {b : β} {s : σ}
    (hstart : P b s) : Gives R (cs.foldlM f b) s P := by
  induction cs generalizing b s with
  | nil =>
      rw [List.foldlM_nil]
      exact pure hstart
  | cons c rest ih =>
      obtain ⟨hhead, hrest⟩ := List.forall_mem_cons.mp hstep
      rw [List.foldlM_cons]
      exact bind (hhead b s hstart) fun b' s' _ hP => ih hrest hP

/-- The same of a loop, which has no result. -/
theorem forM {P : σ → Prop} {f : γ → EStateM ε σ PUnit} {cs : List γ}
    (hstep : ∀ c ∈ cs, ∀ s, P s → Gives R (f c) s fun _ => P) {s : σ} (hstart : P s) :
    Gives R (cs.forM f) s fun _ => P := by
  induction cs generalizing s with
  | nil => exact pure hstart
  | cons c rest ih =>
      obtain ⟨hhead, hrest⟩ := List.forall_mem_cons.mp hstep
      exact bind (hhead s hstart) fun _ s' _ hP => ih hrest hP

end Gives

/-- Work that keeps a relation gives a related state. -/
theorem Keeps.gives {R : σ → σ → Prop} {x : EStateM ε σ α} (hx : Keeps R x) (s : σ) :
    Gives R x s fun _ _ => True := by
  intro a s' hrun
  have hend := hx s
  rw [endState_of_ok hrun] at hend
  exact ⟨hend, trivial⟩

namespace Keeps

variable {R : σ → σ → Prop} [IsPreorder σ R]

theorem pure (a : α) : Keeps R (Pure.pure a : EStateM ε σ α) :=
  fun s => refl s

theorem bind {x : EStateM ε σ β} {f : β → EStateM ε σ α} (hx : Keeps R x)
    (hf : ∀ b, Keeps R (f b)) : Keeps R (x >>= f) := by
  intro s
  have hfirst := hx s
  cases hrun : x s with
  | ok b s₁ =>
      rw [endState_of_ok hrun] at hfirst
      have hsame : endState (x >>= f) s = endState (f b) s₁ := by
        rw [endState, bind_of_ok hrun, endState]
      rw [hsame]
      exact Trans.trans hfirst (hf b s₁)
  | error e s₁ =>
      rw [endState_of_error hrun] at hfirst
      rw [endState_of_error (bind_of_error hrun)]
      exact hfirst

/-- Work on every element of a list keeps what the work on each of them does. -/
theorem mapM_of_mem {f : γ → EStateM ε σ β} {cs : List γ} (hf : ∀ c ∈ cs, Keeps R (f c)) :
    Keeps R (cs.mapM f) := by
  induction cs with
  | nil =>
      rw [List.mapM_nil]
      exact pure []
  | cons c rest ih =>
      obtain ⟨hhead, hrest⟩ := List.forall_mem_cons.mp hf
      rw [List.mapM_cons]
      exact bind hhead fun b => bind (ih hrest) fun bs => pure (b :: bs)

theorem mapM {f : γ → EStateM ε σ β} (hf : ∀ c, Keeps R (f c)) (cs : List γ) :
    Keeps R (cs.mapM f) :=
  mapM_of_mem fun c _ => hf c

theorem foldlM_of_mem {f : β → γ → EStateM ε σ β} {cs : List γ}
    (hf : ∀ c ∈ cs, ∀ b, Keeps R (f b c)) (b : β) : Keeps R (cs.foldlM f b) := by
  induction cs generalizing b with
  | nil =>
      rw [List.foldlM_nil]
      exact pure b
  | cons c rest ih =>
      obtain ⟨hhead, hrest⟩ := List.forall_mem_cons.mp hf
      rw [List.foldlM_cons]
      exact bind (hhead b) fun b' => ih hrest b'

theorem foldlM {f : β → γ → EStateM ε σ β} (hf : ∀ b c, Keeps R (f b c)) (cs : List γ) (b : β) :
    Keeps R (cs.foldlM f b) :=
  foldlM_of_mem (fun c _ b => hf b c) b

theorem forM {f : γ → EStateM ε σ PUnit} (hf : ∀ c, Keeps R (f c)) (cs : List γ) :
    Keeps R (cs.forM f) := by
  induction cs with
  | nil => exact pure PUnit.unit
  | cons c rest ih => exact bind (hf c) fun _ => ih

end Keeps

/-- Two steps that end well have both ended well. -/
theorem exists_of_bind_eq_ok {ε : Type v} {α β : Type u} {x : Except ε α} {f : α → Except ε β}
    {b : β} (hbind : (x >>= f) = .ok b) : ∃ a, x = .ok a ∧ f a = .ok b := by
  cases x with
  | error e => cases hbind
  | ok a => exact ⟨a, rfl, hbind⟩

theorem eq_ok_of_liftError {α : Type} {x : Except GraphError α} {a : α}
    (hx : liftError x = .ok a) : x = .ok a := by
  cases x with
  | error e => cases hx
  | ok a' => exact congrArg Except.ok (Except.ok.inj hx)

theorem eq_ok_of_liftFault {α : Type} {x : Except Fault α} {a : α}
    (hx : liftFault x = .ok a) : x = .ok a := by
  cases x with
  | error e => cases hx
  | ok a' => exact congrArg Except.ok (Except.ok.inj hx)

end ExprGraph
