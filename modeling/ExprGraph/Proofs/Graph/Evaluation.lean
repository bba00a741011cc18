import Mathlib
import ExprGraph.Graph.Meaning
import ExprGraph.Proofs.Graph.WellFormed

/-!
# Evaluation

The value of a node does not change while its graph grows, it exists when the variables have values,
and maps between interpretations carry values to values.  All three are inductions from operands to
users.
-/

namespace ExprGraph

universe u v w

theorem Op.arity_cases (op : Op) : op.arity = 1 ∨ op.arity = 2 ∨ op = .ifElse := by
  cases op <;> simp [Op.arity]

namespace Interpretation

variable {α : Type u} {β : Type v}

/-- An operator has a value at as many operands as it takes. -/
theorem exists_applied? (interp : Interpretation α) {op : Op} {values : List α}
    (harity : values.length = op.arity) : ∃ v, interp.applied? op values = some v := by
  rcases op.arity_cases with hone | htwo | rfl
  · obtain ⟨a, rfl⟩ := List.length_eq_one_iff.mp (harity.trans hone)
    exact ⟨_, rfl⟩
  · obtain ⟨a, b, rfl⟩ := List.length_eq_two.mp (harity.trans htwo)
    exact ⟨_, rfl⟩
  · obtain ⟨c, a, b, rfl⟩ := List.length_eq_three.mp harity
    exact ⟨_, rfl⟩

/-- A map between types of values that agrees with two interpretations of them. -/
structure Morphism (φ : α → β) (source : Interpretation α) (target : Interpretation β) :
    Prop where
  literal (v : Float) : φ (source.literal v) = target.literal v
  unary {op : Op} (harity : op.arity = 1) (a : α) : φ (source.unary op a) = target.unary op (φ a)
  binary {op : Op} (harity : op.arity = 2) (a b : α) :
    φ (source.binary op a b) = target.binary op (φ a) (φ b)
  choose (c a b : α) : φ (source.choose c a b) = target.choose (φ c) (φ a) (φ b)

theorem Morphism.applied? {φ : α → β} {source : Interpretation α} {target : Interpretation β}
    (hφ : Morphism φ source target) {op : Op} {values : List α}
    (harity : values.length = op.arity) :
    target.applied? op (values.map φ) = (source.applied? op values).map φ := by
  rcases op.arity_cases with hone | htwo | rfl
  · obtain ⟨a, rfl⟩ := List.length_eq_one_iff.mp (harity.trans hone)
    exact congrArg some (hφ.unary hone a).symm
  · obtain ⟨a, b, rfl⟩ := List.length_eq_two.mp (harity.trans htwo)
    exact congrArg some (hφ.binary htwo a b).symm
  · obtain ⟨c, a, b, rfl⟩ := List.length_eq_three.mp harity
    exact congrArg some (hφ.choose c a b).symm

end Interpretation

theorem mapM_eq_some_iff_forall₂ {α : Type u} {β : Type v} {f : β → Option α} {hs : List β}
    {vs : List α} : hs.mapM f = some vs ↔ List.Forall₂ (fun h v => f h = some v) hs vs := by
  induction hs generalizing vs with
  | nil => simp [eq_comm]
  | cons h rest ih =>
      simp [List.forall₂_cons_left_iff, Option.bind_eq_some_iff, ← ih, eq_comm (a := vs)]

theorem mapM_eq_some_map {α : Type u} {β : Type v} {f : β → Option α} {φ : β → α} {hs : List β}
    (hf : ∀ h ∈ hs, f h = some (φ h)) : hs.mapM f = some (hs.map φ) := by
  rw [mapM_eq_some_iff_forall₂, List.forall₂_map_right_iff, List.forall₂_same]
  exact hf

theorem mapM_congr {α : Type u} {β : Type v} {f f' : β → Option α} {hs : List β}
    (hf : ∀ h ∈ hs, f h = f' h) : hs.mapM f = hs.mapM f' := by
  induction hs with
  | nil => rfl
  | cons h rest ih =>
      rw [List.mapM_cons, List.mapM_cons, hf h List.mem_cons_self,
        ih fun a ha => hf a (List.mem_cons_of_mem h ha)]

theorem map_eq_map_of_forall₂ {β : Type u} {γ : Type v} {δ : Type w} {R : β → γ → Prop}
    {f : β → δ} {f' : γ → δ} {bs : List β} {cs : List γ} (hR : List.Forall₂ R bs cs)
    (hf : ∀ b c, R b c → f' c = f b) : cs.map f' = bs.map f := by
  induction hR with
  | nil => rfl
  | cons hfirst _ ih => rw [List.map_cons, List.map_cons, hf _ _ hfirst, ih]

theorem map_eq_map_some_of_mapM {α : Type u} {β : Type v} {f : β → Option α} {hs : List β}
    {vs : List α} (hmap : hs.mapM f = some vs) : hs.map f = vs.map some :=
  (map_eq_map_of_forall₂ (mapM_eq_some_iff_forall₂.mp hmap) fun _ _ hv => hv.symm).symm

theorem mapM_map {α : Type u} {β : Type v} {γ : Type} {f : γ → Option α} {f' : γ → Option β}
    {φ : α → β} {hs : List γ} (hf : ∀ h ∈ hs, f' h = (f h).map φ) :
    hs.mapM f' = (hs.mapM f).map (List.map φ) := by
  induction hs with
  | nil => rfl
  | cons h rest ih =>
      rw [List.mapM_cons, List.mapM_cons, hf h List.mem_cons_self,
        ih fun a ha => hf a (List.mem_cons_of_mem h ha)]
      cases f h <;> cases rest.mapM f <;> rfl

namespace Graph

variable {α : Type u} {β : Type v}

/-- Induction from operands to users. -/
theorem WellFormed.induction {g : Graph} (hg : g.WellFormed) {P : ∀ h, g.Live h → Prop}
    (step : ∀ h n (hn : g.node h = .ok n),
      (∀ a (hlive : g.Live a), a ∈ n.args → P a hlive) → P h ⟨n, hn⟩)
    (h : Handle) (hlive : g.Live h) : P h hlive := by
  generalize hplace : g.placeOf h = place
  induction place using Nat.strong_induction_on generalizing h with
  | h place ih =>
      obtain ⟨n, hn⟩ := hlive
      apply step h n hn
      intro a hlive ha
      cases n with
      | var => cases ha
      | lit => cases ha
      | app app => exact ih _ (hplace ▸ hg.earlier hn ha) a hlive rfl

theorem WellFormed.value?_of_app {g : Graph} (hg : g.WellFormed) {interp : Interpretation α}
    {assign : Handle → Option α} {h : Handle} {app : Application}
    (hn : g.node h = .ok (.app app)) :
    g.value? interp assign h =
      (app.args.mapM fun a => g.value? interp assign a) >>= interp.applied? app.op :=
  Graph.value?_of_app hn fun _ ha => hg.earlier hn ha

/-- The value of a node stays when the graph grows. -/
theorem WellFormed.value?_extends {g g' : Graph} (hg : g.WellFormed) (hg' : g'.WellFormed)
    (hext : g.Extends g') (interp : Interpretation α) (assign : Handle → Option α) {h : Handle}
    (hlive : g.Live h) : g'.value? interp assign h = g.value? interp assign h := by
  induction h, hlive using hg.induction with
  | step h n hn ih =>
      have hn' := hext.node_eq hn
      cases n with
      | var id name => rw [value?_of_var hn, value?_of_var hn']
      | lit v => rw [value?_of_lit hn, value?_of_lit hn']
      | app app =>
          rw [hg.value?_of_app hn, hg'.value?_of_app hn',
            mapM_congr fun a ha => ih a (hg.live hn ha) ha]

/-- A live node has a value when all variables have one. -/
theorem WellFormed.exists_value? {g : Graph} (hg : g.WellFormed) (interp : Interpretation α)
    (assign : Handle → α) {h : Handle} (hlive : g.Live h) :
    ∃ v, g.value? interp (fun x => some (assign x)) h = some v := by
  induction h, hlive using hg.induction with
  | step h n hn ih =>
      cases n with
      | var id name => exact ⟨_, value?_of_var hn⟩
      | lit v => exact ⟨_, value?_of_lit hn⟩
      | app app =>
          have hargs : ∀ a ∈ app.args, ∃ v,
              g.value? interp (fun x => some (assign x)) a = some v :=
            fun a ha => ih a (hg.live hn ha) ha
          have : Nonempty α := ⟨assign h⟩
          choose! φ hφ using hargs
          rw [hg.value?_of_app hn, mapM_eq_some_map hφ]
          exact interp.exists_applied? (by rw [List.length_map, hg.arity hn])

/-- A morphism carries the value of a node to its value, and a node without a value stays one. -/
theorem WellFormed.value?_map {g : Graph} (hg : g.WellFormed) {φ : α → β}
    {source : Interpretation α} {target : Interpretation β}
    (hφ : Interpretation.Morphism φ source target) (assign : Handle → Option α) (h : Handle) :
    g.value? target (fun x => (assign x).map φ) h = (g.value? source assign h).map φ := by
  by_cases hlive : g.Live h
  swap
  · cases hn : g.node h with
    | ok n => exact absurd ⟨n, hn⟩ hlive
    | error e =>
        rw [value?_of_error hn, value?_of_error hn]
        rfl
  induction h, hlive using hg.induction with
  | step h n hn ih =>
      cases n with
      | var id name => rw [value?_of_var hn, value?_of_var hn]
      | lit v => rw [value?_of_lit hn, value?_of_lit hn, Option.map_some, hφ.literal]
      | app app =>
          rw [hg.value?_of_app hn, hg.value?_of_app hn,
            mapM_map fun a ha => ih a (hg.live hn ha) ha]
          cases hvalues : app.args.mapM fun a => g.value? source assign a with
          | none => rfl
          | some values =>
              have hlength := congrArg List.length (map_eq_map_some_of_mapM hvalues)
              rw [List.length_map, List.length_map, hg.arity hn] at hlength
              exact hφ.applied? hlength.symm

/-- The same where all variables have values. -/
theorem WellFormed.value?_morphism {g : Graph} (hg : g.WellFormed) {φ : α → β}
    {source : Interpretation α} {target : Interpretation β}
    (hφ : Interpretation.Morphism φ source target) (assign : Handle → α) (h : Handle) :
    g.value? target (fun x => some (φ (assign x))) h =
      (g.value? source (fun x => some (assign x)) h).map φ :=
  hg.value?_map hφ (fun x => some (assign x)) h

end Graph

end ExprGraph
