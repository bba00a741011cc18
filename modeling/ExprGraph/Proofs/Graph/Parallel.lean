import Mathlib
import ExprGraph.Proofs.Graph.Relocation

/-!
# Building in parallel

The same work on two corresponding graphs, with corresponding operands: it succeeds on both, with
corresponding results, or fails on both with the same error.  Either way corresponding graphs are
left, so what is built afterwards corresponds as well.
-/

namespace ExprGraph

open ExprGraph.Graph

namespace Graph

variable {g g' : Graph} {φ : Handle → Handle}

/-- Handles that name nodes of the first graph, beside the handles of the corresponding nodes of the
second. -/
def NamesAll (φ : Handle → Handle) (hs hs' : List Handle) (g : Graph) : Prop :=
  (∀ a ∈ hs, g.Live a) ∧ hs' = hs.map φ

/-- A handle that names a node of the first graph, beside the handle of the corresponding node of
the second. -/
def Names (φ : Handle → Handle) (a a' : Handle) (g : Graph) : Prop :=
  g.Live a ∧ a' = φ a

theorem Extends.live_all (hext : g.Extends g') {hs : List Handle} (hlive : ∀ a ∈ hs, g.Live a) :
    ∀ a ∈ hs, g'.Live a :=
  fun a ha => hext.live (hlive a ha)

theorem live_pair {a b : Handle} (ha : g.Live a) (hb : g.Live b) : ∀ c ∈ [a, b], g.Live c :=
  List.forall_mem_cons.mpr ⟨ha, List.forall_mem_singleton.mpr hb⟩

/-- Fresh variables correspond one by one. -/
theorem Relocation.declareFrom (hφ : g.Relocation φ g') (stem : String) (first count : Nat) :
    NamesAll φ (g.declareFrom stem first count).1 (g'.declareFrom stem first count).1
        (g.declareFrom stem first count).2 ∧
      (g.declareFrom stem first count).2.Relocation φ (g'.declareFrom stem first count).2 := by
  induction count generalizing g g' first with
  | zero => exact ⟨⟨fun a ha => absurd ha List.not_mem_nil, rfl⟩, hφ⟩
  | succ count ih =>
      obtain ⟨hhandle, hnext⟩ := hφ.declare (stem ++ toString first)
      obtain ⟨⟨hlive, hrest⟩, hend⟩ := ih hnext (first + 1)
      have hgrows := declareFrom_grows (g.declare (stem ++ toString first)).2 stem (first + 1) count
      refine ⟨⟨List.forall_mem_cons.mpr ⟨hgrows.extends.live ⟨_, g.node_push_self _⟩, hlive⟩, ?_⟩,
        hend⟩
      exact congrArg₂ List.cons hhandle hrest

end Graph

namespace BuildM

variable {α β : Type} {φ : Handle → Handle} {g g' : Graph}

/-- Work on two corresponding graphs: it succeeds on both, and the results are related, or it fails
on both with the same error. -/
inductive Parallel (φ : Handle → Handle) (Q : α → α → Graph → Prop) (g g' : Graph)
    (x x' : BuildM α) : Prop
  | ok {a a' : α} {h h' : Graph} (hrun : x g = .ok a h) (hrun' : x' g' = .ok a' h')
      (hext : g.Extends h) (hφ : h.Relocation φ h') (hQ : Q a a' h)
  | error {e : Failure} {h h' : Graph} (hrun : x g = .error e h) (hrun' : x' g' = .error e h')
      (hext : g.Extends h) (hφ : h.Relocation φ h')

namespace Parallel

variable {P : α → α → Graph → Prop} {Q : β → β → Graph → Prop}

theorem pure (hφ : g.Relocation φ g') {a a' : α} (hP : P a a' g) :
    Parallel φ P g g' (Pure.pure a) (Pure.pure a') :=
  .ok rfl rfl (.refl g) hφ hP

theorem bind {x x' : BuildM α} {f f' : α → BuildM β} (hx : Parallel φ P g g' x x')
    (hf : ∀ {a a' h h'}, g.Extends h → h.Relocation φ h' → P a a' h →
      Parallel φ Q h h' (f a) (f' a')) : Parallel φ Q g g' (x >>= f) (x' >>= f') := by
  cases hx with
  | ok hrun hrun' hext hφ hP =>
      cases hf hext hφ hP with
      | ok hnext hnext' hext' hφ' hQ =>
          exact .ok ((bind_of_ok hrun).trans hnext) ((bind_of_ok hrun').trans hnext')
            (hext.trans hext') hφ' hQ
      | error hnext hnext' hext' hφ' =>
          exact .error ((bind_of_ok hrun).trans hnext) ((bind_of_ok hrun').trans hnext')
            (hext.trans hext') hφ'
  | error hrun hrun' hext hφ =>
      exact .error (bind_of_error hrun) (bind_of_error hrun') hext hφ

end Parallel

theorem literal_parallel (hφ : g.Relocation φ g') (v : Float) :
    Parallel φ (Names φ) g g' (literal v) (literal v) := by
  obtain ⟨hhandle, hnext⟩ := hφ.literal v
  exact .ok rfl rfl (literal_extends g v) hnext ⟨⟨_, hφ.wellFormed.node_literal v⟩, hhandle⟩

theorem declare_parallel (hφ : g.Relocation φ g') (name : String) :
    Parallel φ (Names φ) g g' (extend fun g => g.declare name)
      (extend fun g => g.declare name) := by
  obtain ⟨hhandle, hnext⟩ := hφ.declare name
  exact .ok rfl rfl (declare_extends g name) hnext ⟨⟨_, g.node_push_self _⟩, hhandle⟩

theorem declareMany_parallel (hφ : g.Relocation φ g') (stem : String) (count : Nat) :
    Parallel φ (NamesAll φ) g g' (extend fun g => g.declareMany stem count)
      (extend fun g => g.declareMany stem count) := by
  obtain ⟨hnames, hnext⟩ := hφ.declareFrom stem 1 count
  exact .ok rfl rfl (declareFrom_grows g stem 1 count).extends hnext hnames

theorem validate_parallel (hφ : g.Relocation φ g') {hs : List Handle}
    (hlive : ∀ a ∈ hs, g.Live a) :
    Parallel φ (fun _ _ _ => True) g g' (inspect fun g => g.validate hs)
      (inspect fun g => g.validate (hs.map φ)) :=
  .ok (inspect_eq (validate_eq_ok_iff.mpr hlive))
    (inspect_eq (validate_eq_ok_iff.mpr (hφ.live_map hlive))) (.refl g) hφ trivial

/-- An application of the wrong number of operands is refused on both graphs. -/
theorem operation_parallel (hφ : g.Relocation φ g') (op : Op) {args : List Handle}
    (hlive : ∀ a ∈ args, g.Live a) :
    Parallel φ (Names φ) g g' (operation op args) (operation op (args.map φ)) := by
  by_cases harity : args.length = op.arity
  · have harity' : (args.map φ).length = op.arity := by rw [List.length_map, harity]
    obtain ⟨hhandle, hnext⟩ := hφ.build harity hlive
    exact .ok (operation_eq harity hlive) (operation_eq harity' (hφ.live_map hlive))
      (build_extends g op args) hnext ⟨hφ.wellFormed.live_build hlive, hhandle⟩
  · have hrefused : operation op args g = .error (.refused (.arityMismatch op args.length)) g := by
      rw [operation, if_pos harity]
      rfl
    have hrefused' : operation op (args.map φ) g' =
        .error (.refused (.arityMismatch op args.length)) g' := by
      rw [operation, List.length_map, if_pos harity]
      rfl
    exact .error hrefused hrefused' (.refl g) hφ

theorem powLiteral_parallel (hφ : g.Relocation φ g') {a : Handle} (ha : g.Live a)
    (exponent : Float) :
    Parallel φ (Names φ) g g' (powLiteral a exponent) (powLiteral (φ a) exponent) := by
  refine (literal_parallel hφ exponent).bind fun hext hφ' he => ?_
  obtain ⟨he, rfl⟩ := he
  exact operation_parallel hφ' .pow (live_pair (hext.live ha) he)

theorem scale_parallel (hφ : g.Relocation φ g') (factor : Float) {a : Handle} (ha : g.Live a) :
    Parallel φ (Names φ) g g' (scale factor a) (scale factor (φ a)) := by
  refine (literal_parallel hφ factor).bind fun hext hφ' hc => ?_
  obtain ⟨hc, rfl⟩ := hc
  exact operation_parallel hφ' .mul (live_pair hc (hext.live ha))

/-- Joining nodes from left to right. -/
theorem join_parallel (hφ : g.Relocation φ g') (op : Op) {total : Handle} {rest : List Handle}
    (htotal : g.Live total) (hrest : ∀ a ∈ rest, g.Live a) :
    Parallel φ (Names φ) g g' (rest.foldlM (fun total a => operation op [total, a]) total)
      ((rest.map φ).foldlM (fun total a => operation op [total, a]) (φ total)) := by
  induction rest generalizing g g' total with
  | nil => exact .pure hφ ⟨htotal, rfl⟩
  | cons a rest ih =>
      obtain ⟨ha, hrest⟩ := List.forall_mem_cons.mp hrest
      rw [List.map_cons, List.foldlM_cons, List.foldlM_cons]
      refine (operation_parallel hφ op (live_pair htotal ha)).bind
        fun hext hφ' hnext => ?_
      obtain ⟨hnext, rfl⟩ := hnext
      exact ih hφ' hnext (hext.live_all hrest)

theorem sum_parallel (hφ : g.Relocation φ g') {terms : List Handle}
    (hlive : ∀ a ∈ terms, g.Live a) :
    Parallel φ (Names φ) g g' (sum terms) (sum (terms.map φ)) := by
  cases terms with
  | nil => exact literal_parallel hφ 0.0
  | cons first rest =>
      obtain ⟨hfirst, hrest⟩ := List.forall_mem_cons.mp hlive
      exact (validate_parallel hφ (List.forall_mem_singleton.mpr hfirst)).bind fun hext hφ' _ =>
        join_parallel hφ' .add (hext.live hfirst) (hext.live_all hrest)

theorem product_parallel (hφ : g.Relocation φ g') {factors : List Handle}
    (hlive : ∀ a ∈ factors, g.Live a) :
    Parallel φ (Names φ) g g' (product factors) (product (factors.map φ)) := by
  cases factors with
  | nil => exact literal_parallel hφ 1.0
  | cons first rest =>
      obtain ⟨hfirst, hrest⟩ := List.forall_mem_cons.mp hlive
      exact (validate_parallel hφ (List.forall_mem_singleton.mpr hfirst)).bind fun hext hφ' _ =>
        join_parallel hφ' .mul (hext.live hfirst) (hext.live_all hrest)

theorem products_parallel (hφ : g.Relocation φ g') {pairs : List (Handle × Handle)}
    (hlive : ∀ pair ∈ pairs, g.Live pair.1 ∧ g.Live pair.2) :
    Parallel φ (NamesAll φ) g g' (pairs.mapM fun (a, b) => operation .mul [a, b])
      ((pairs.map (Prod.map φ φ)).mapM fun (a, b) => operation .mul [a, b]) := by
  induction pairs generalizing g g' with
  | nil => exact .pure hφ ⟨fun a ha => absurd ha List.not_mem_nil, rfl⟩
  | cons pair rest ih =>
      obtain ⟨⟨ha, hb⟩, hrest⟩ := List.forall_mem_cons.mp hlive
      rw [List.map_cons, List.mapM_cons, List.mapM_cons]
      refine (operation_parallel hφ .mul (live_pair ha hb)).bind
        fun hext hφ' hterm => ?_
      refine (ih hφ' fun pair hpair =>
        ⟨hext.live (hrest pair hpair).1, hext.live (hrest pair hpair).2⟩).bind
        fun hext' hφ'' hterms => ?_
      obtain ⟨hterm, rfl⟩ := hterm
      obtain ⟨hterms, rfl⟩ := hterms
      exact .pure hφ'' ⟨List.forall_mem_cons.mpr ⟨hext'.live hterm, hterms⟩, rfl⟩

theorem dot_parallel (hφ : g.Relocation φ g') {left right : List Handle}
    (hleft : ∀ a ∈ left, g.Live a) (hright : ∀ b ∈ right, g.Live b) :
    Parallel φ (Names φ) g g' (dot left right) (dot (left.map φ) (right.map φ)) := by
  unfold dot
  rw [List.length_map, List.length_map, List.zip_map]
  split
  · exact .error rfl rfl (.refl g) hφ
  · refine (products_parallel hφ fun pair hpair => ?_).bind fun hext hφ' hterms => ?_
    · exact ⟨hleft _ (List.of_mem_zip hpair).1, hright _ (List.of_mem_zip hpair).2⟩
    · obtain ⟨hterms, rfl⟩ := hterms
      exact sum_parallel hφ' hterms

end BuildM

end ExprGraph
