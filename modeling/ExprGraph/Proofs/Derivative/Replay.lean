import Mathlib
import ExprGraph.Derivative.Direct
import ExprGraph.Proofs.Graph.Replay
import ExprGraph.Proofs.Derivative.Growth

/-!
# Differentiating again

Local partials and derivatives that have been built are found when they are built again.  The direct
recursion builds them again for every use of a node; so it makes the nodes of a derivative once, and
later uses change nothing.
-/

namespace ExprGraph

open ExprGraph.Graph

namespace BuildM

variable {g g' : Graph}

theorem isZero_settles {h : Handle} (hlive : g.Live h) :
    Settles (isZero h) g fun _ _ => True := by
  have hrun : isZero h g = .ok (g.isZero h) g := rfl
  refine (Succeeds.of_eq hrun (refl g) ⟨trivial, fun g' _ hext => ?_⟩).gives
  have hsame : g'.isZero h = g.isZero h := hext.holds_eq Node.isZero hlive
  rw [← hsame]
  rfl

theorem formula_settles {node : Handle} {args : List Handle} (f : Formula) (hg : g.WellFormed)
    (hnode : g.Live node) (hargs : ∀ a ∈ args, g.Live a) :
    Settles (f.build node args) g fun h g' => g'.Live h := by
  have hlater : ∀ {g g' : Graph}, g.Grows g' → (∀ a ∈ args, g.Live a) → ∀ a ∈ args, g'.Live a :=
    fun hgrows hargs a ha => hgrows.extends.live (hargs a ha)
  induction f generalizing g with
  | self => exact .pure hnode
  | operand index =>
      rw [Formula.build]
      split
      · next a ha => exact .pure (hargs a (List.mem_of_getElem? ha))
      · exact .of_error rfl
  | literal v => exact literal_settles hg v
  | unary op a iha =>
      exact .bind (iha hg hnode hargs) fun a _ hgrows _ =>
        operation_settles (hg.grows hgrows) op [a]
  | binary op a b iha ihb =>
      refine .bind (iha hg hnode hargs) fun a g₁ hgrows₁ _ => ?_
      have hg₁ := hg.grows hgrows₁
      exact .bind (ihb hg₁ (hgrows₁.extends.live hnode) (hlater hgrows₁ hargs))
        fun b _ hgrows₂ _ => operation_settles (hg₁.grows hgrows₂) op [a, b]
  | select c a b ihc iha ihb =>
      refine .bind (ihc hg hnode hargs) fun c g₁ hgrows₁ _ => ?_
      have hg₁ := hg.grows hgrows₁
      have hnode₁ := hgrows₁.extends.live hnode
      refine .bind (iha hg₁ hnode₁ (hlater hgrows₁ hargs)) fun a g₂ hgrows₂ _ => ?_
      have hg₂ := hg₁.grows hgrows₂
      exact .bind (ihb hg₂ (hgrows₂.extends.live hnode₁) (hlater (hgrows₁.trans hgrows₂) hargs))
        fun b _ hgrows₃ _ => operation_settles (hg₂.grows hgrows₃) .ifElse [c, a, b]
  | after first second ihfirst ihsecond =>
      exact .bind (ihfirst hg hnode hargs) fun _ _ hgrows _ =>
        ihsecond (hg.grows hgrows) (hgrows.extends.live hnode) (hlater hgrows hargs)

/-- The sum of the chain rule, over tangents that are live. -/
theorem combine_settles {node : Handle} {app : Application} {index : Nat}
    {tangents : List Handle} {total : Option Handle} (hg : g.WellFormed) (hnode : g.Live node)
    (hargs : ∀ a ∈ app.args, g.Live a) (htangents : ∀ t ∈ tangents, g.Live t)
    (htotal : ∀ t ∈ total, g.Live t) :
    Settles (combine node app index tangents total) g fun h g' => g'.Live h := by
  induction tangents generalizing g index total with
  | nil =>
      cases total with
      | none => exact literal_settles hg 0.0
      | some total => exact .pure (htotal total rfl)
  | cons tangent rest ih =>
      obtain ⟨htangent, hrest⟩ := List.forall_mem_cons.mp htangents
      -- the rest of the sum, from any later state and with any total
      have hnext : ∀ {g' : Graph} {total : Option Handle}, g.Grows g' →
          (∀ t ∈ total, g'.Live t) →
          Settles (combine node app (index + 1) rest total) g' fun h g'' => g''.Live h :=
        fun hgrows htotal => ih (hg.grows hgrows) (hgrows.extends.live hnode)
          (fun a ha => hgrows.extends.live (hargs a ha))
          (fun t ht => hgrows.extends.live (hrest t ht)) htotal
      rw [combine]
      refine .bind (isZero_settles htangent) fun zeroTangent g₁ hgrows₁ _ => ?_
      have hg₁ := hg.grows hgrows₁
      split
      · exact hnext hgrows₁ fun t ht => hgrows₁.extends.live (htotal t ht)
      refine .bind (formula_settles _ hg₁ (hgrows₁.extends.live hnode) fun a ha =>
        hgrows₁.extends.live (hargs a ha)) fun p g₂ hgrows₂ hp => ?_
      have hg₂ := hg₁.grows hgrows₂
      refine .bind (isZero_settles hp) fun zeroPartial g₃ hgrows₃ _ => ?_
      have hg₃ := hg₂.grows hgrows₃
      have hlater := (hgrows₁.trans hgrows₂).trans hgrows₃
      split
      · exact hnext hlater fun t ht => hlater.extends.live (htotal t ht)
      refine .bind (operation_settles hg₃ .mul [p, tangent]) fun term g₄ hgrows₄ hterm => ?_
      have hnext' : ∀ {g' : Graph} {sum : Handle}, g₄.Grows g' → g'.Live sum →
          Settles (combine node app (index + 1) rest (some sum)) g' fun h g'' => g''.Live h := by
        intro g' sum hgrows hsum
        refine hnext (hlater.trans (hgrows₄.trans hgrows)) fun t ht => ?_
        rwa [← Option.mem_some_iff.mp ht]
      cases total with
      | none => exact .bind (.pure hterm) fun sum g' hgrows hsum => hnext' hgrows hsum
      | some before =>
          exact .bind (operation_settles (hg₃.grows hgrows₄) .add [before, term])
            fun sum g' hgrows hsum => hnext' hgrows hsum

/-- The derivative of a node, given those of its operands. -/
def differentiateWith (var node : Handle) (n : Node) (tangents : List Handle) : BuildM Handle :=
  match n with
  | .var .. => literal (if node = var then 1.0 else 0.0)
  | .lit _ => literal 0.0
  | .app app => combine node app 0 tangents none

/-- The derivatives of the operands come first, from left to right. -/
theorem differentiateBelow_succ {node : Handle} {n : Node} (hn : g.node node = .ok n)
    (var : Handle) (depth : Nat) :
    differentiateBelow var (depth + 1) node g =
      (n.args.mapM (differentiateBelow var depth) >>= differentiateWith var node n) g := by
  have hread : inspect (fun g => g.node node) g = .ok n g := by rw [inspect, hn]
  rw [differentiateBelow, bind_of_ok hread]
  cases n <;> rfl

theorem differentiateWith_settles {var node : Handle} {n : Node} {tangents : List Handle}
    (hg : g.WellFormed) (hn : g.node node = .ok n) (htangents : ∀ t ∈ tangents, g.Live t) :
    Settles (differentiateWith var node n tangents) g fun h g' => g'.Live h := by
  cases n with
  | var id name => exact literal_settles hg _
  | lit v => exact literal_settles hg _
  | app app =>
      exact combine_settles hg ⟨_, hn⟩ (fun a ha => hg.live hn ha) htangents
        fun t ht => absurd ht (by simp)

theorem combine_keeps (node : Handle) (app : Application) (index : Nat) (tangents : List Handle)
    (total : Option Handle) : Keeps Grows (combine node app index tangents total) := by
  induction tangents generalizing index total with
  | nil =>
      cases total with
      | none => exact literal_keeps 0.0
      | some total => exact .pure total
  | cons tangent rest ih =>
      rw [combine]
      refine .bind (inspect_keeps _) fun zeroTangent => ?_
      split
      · exact ih (index + 1) total
      refine .bind (formula_keeps node app.args _) fun p => .bind (inspect_keeps _) fun _ => ?_
      split
      · exact ih (index + 1) total
      refine .bind (operation_keeps .mul [p, tangent]) fun term => ?_
      cases total with
      | none => exact .bind (.pure term) fun total => ih (index + 1) (some total)
      | some before =>
          exact .bind (operation_keeps .add [before, term]) fun total => ih (index + 1) (some total)

theorem differentiateBelow_keeps (var : Handle) (depth : Nat) (node : Handle) :
    Keeps Grows (differentiateBelow var depth node) := by
  induction depth generalizing node with
  | zero => exact fun g => refl g
  | succ depth ih =>
      refine .bind (inspect_keeps _) fun n => ?_
      cases n with
      | var id name => exact literal_keeps _
      | lit v => exact literal_keeps _
      | app app =>
          exact .bind (.mapM ih app.args) fun tangents => combine_keeps node app 0 tangents none

/-- Work on a list gives known results at once when the work on each of its elements does. -/
theorem mapM_replays {work : Handle → BuildM Handle} {value : Handle → Handle} {hs : List Handle}
    (hwork : ∀ h ∈ hs, Replays (work h) (value h) g) : Replays (hs.mapM work) (hs.map value) g := by
  induction hs with
  | nil => exact fun _ _ _ => rfl
  | cons h rest ih =>
      obtain ⟨hhead, hrest⟩ := List.forall_mem_cons.mp hwork
      rw [List.mapM_cons]
      exact hhead.bind ((ih hrest).bind fun _ _ _ => rfl)

/-- Work that is done on some elements of a list in turn, and known for the others, is done on the
whole list. -/
theorem mapM_of_filter {work : Handle → BuildM Handle} (hkeeps : ∀ h, Keeps Grows (work h))
    {value : Handle → Handle} {p : Handle → Bool} {hs : List Handle} (hg : g.WellFormed)
    (hknown : ∀ h ∈ hs, p h = false → Replays (work h) (value h) g)
    (hrun : (hs.filter p).mapM work g = .ok ((hs.filter p).map value) g') :
    hs.mapM work g = .ok (hs.map value) g' := by
  induction hs generalizing g with
  | nil => exact hrun
  | cons h rest ih =>
      obtain ⟨hhead, hrest⟩ := List.forall_mem_cons.mp hknown
      rw [List.mapM_cons]
      by_cases hp : p h = true
      · rw [List.filter_cons_of_pos hp, List.mapM_cons, List.map_cons] at hrun
        obtain ⟨d, g₁, hd, hlater⟩ := exists_of_bind_ok hrun
        obtain ⟨ds, g₂, hds, hpure⟩ := exists_of_bind_ok hlater
        cases hpure
        have hgrows : g.Grows g₁ := endState_of_ok hd ▸ hkeeps h g
        rw [bind_of_ok hd, bind_of_ok (ih (hg.grows hgrows)
          (fun a ha hpa => (hrest a ha hpa).extends hgrows.extends) hds)]
        rfl
      · rw [List.filter_cons_of_neg hp] at hrun
        rw [bind_of_ok (hhead (by simpa using hp) g hg (.refl g)), bind_of_ok (ih hg hrest hrun)]
        rfl

end BuildM

end ExprGraph
