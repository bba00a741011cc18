import Mathlib
import ExprGraph.Proofs.Derivative.Independence
import ExprGraph.Proofs.Derivative.Operators

/-!
# What a sweep builds

A sweep builds local partials for operands only through which it is asked to differentiate.  Going
forward it meets zero tangents at all others, and those are literals; going back it leaves out the
nodes that none of the variables lies below.  The two criteria are different, and they prune the
same operands.
-/

namespace ExprGraph

open Workspace

/-- The node is the literal zero unless a condition holds. -/
def Graph.ZeroUnless (g : Graph) (condition : Prop) (h : Handle) : Prop :=
  ¬ condition → g.node h = .ok (.lit 0.0)

theorem Graph.ZeroUnless.extends {g g' : Graph} {condition : Prop} {h : Handle}
    (hzero : g.ZeroUnless condition h) (hext : g.Extends g') : g'.ZeroUnless condition h :=
  fun hnot => hext.node_eq (hzero hnot)

theorem Graph.ZeroUnless.congr {g : Graph} {condition condition' : Prop} {h : Handle}
    (hzero : g.ZeroUnless condition h) (hsame : condition → condition') :
    g.ZeroUnless condition' h :=
  fun hnot => hzero fun hcondition => hnot (hsame hcondition)

/-- The graph has grown.  Local partials have been added for allowed operands only, and logarithms
only if the exponent of a power is among them. -/
structure Workspace.Confines (allowed : Handle → Nat → Prop) (w w' : Workspace) : Prop where
  grows : w.graph.Grows w'.graph
  partials {node : Handle} {index : Nat} : (node, index) ∈ w'.memo.partials →
    (w'.memo.generation = w.memo.generation ∧ (node, index) ∈ w.memo.partials) ∨
      allowed node index
  logarithms {h : Handle} {args : List Handle} : w'.graph.node h = .ok (.app ⟨.ln, args⟩) →
    w.graph.node h = .ok (.app ⟨.ln, args⟩) ∨ ∃ node index operands, allowed node index ∧
      index ≠ 0 ∧ w'.graph.node node = .ok (.app ⟨.pow, operands⟩)

namespace Workspace

variable {allowed allowed' : Handle → Nat → Prop} {w w' : Workspace}

instance : IsPreorder Workspace (Confines allowed) where
  refl w := ⟨refl w.graph, fun hkey => .inl ⟨rfl, hkey⟩, .inl⟩
  trans _ _ _ hfirst hrest := by
    refine ⟨hfirst.grows.trans hrest.grows, fun hkey => ?_, fun hn => ?_⟩
    · rcases hrest.partials hkey with ⟨hgeneration, hbefore⟩ | hnew
      · exact (hfirst.partials hbefore).imp_left fun hold => ⟨hgeneration.trans hold.1, hold.2⟩
      · exact .inr hnew
    · rcases hrest.logarithms hn with hbefore | hnew
      · refine (hfirst.logarithms hbefore).imp_right ?_
        rintro ⟨node, index, operands, hallowed, hindex, hpow⟩
        exact ⟨node, index, operands, hallowed, hindex, hrest.grows.extends.node_eq hpow⟩
      · exact .inr hnew

theorem Confines.mono (hconfines : Confines allowed w w')
    (hallowed : ∀ node index, allowed node index → allowed' node index) :
    Confines allowed' w w' where
  grows := hconfines.grows
  partials hkey := (hconfines.partials hkey).imp_right (hallowed _ _)
  logarithms hn := by
    refine (hconfines.logarithms hn).imp_right ?_
    rintro ⟨node, index, operands, hnow, hpow⟩
    exact ⟨node, index, operands, hallowed node index hnow, hpow⟩

end Workspace

namespace DiffM

open ExprGraph.Graph

variable {α : Type} {allowed : Handle → Nat → Prop} {w : Workspace}

theorem inspect_gives {R : Workspace → Workspace → Prop} [IsPreorder Workspace R]
    (f : Graph → Except GraphError α) (w : Workspace) :
    Gives R (inspect f) w fun a w' => w' = w ∧ f w.graph = .ok a := by
  intro a w' hrun
  obtain ⟨rfl, hf⟩ := eq_of_inspect hrun
  exact ⟨refl w', rfl, hf⟩

theorem consult_gives {R : Workspace → Workspace → Prop} [IsPreorder Workspace R]
    (f : Workspace → Except Failure α) (w : Workspace) :
    Gives R (consult f) w fun a w' => w' = w ∧ f w = .ok a := by
  cases hf : f w with
  | error e => exact .of_error (by rw [consult, hf])
  | ok a => exact (Succeeds.of_eq (consult_eq hf) (refl w) ⟨rfl, rfl⟩).gives

/-- Work that adds no logarithm is confined to nothing. -/
theorem onGraph_confines {work : BuildM α} (hgrows : Keeps Graph.Grows work)
    (hln : Keeps (AddsNo .ln) work) : Keeps (Confines allowed) (onGraph work) := by
  intro w
  rw [endState_onGraph]
  exact ⟨hgrows w.graph, fun hkey => .inl ⟨rfl, hkey⟩, fun hn => .inl (hln w.graph _ _ hn)⟩

theorem literal_confines (v : Float) : Keeps (Confines allowed) (literal v) :=
  onGraph_confines (BuildM.literal_keeps v) fun g => g.literal_addsNo v

theorem operation_confines {op : Op} (hop : op ≠ .ln) (args : List Handle) :
    Keeps (Confines allowed) (operation op args) :=
  onGraph_confines (BuildM.operation_keeps op args) (BuildM.operation_addsNo (by decide) hop args)

theorem sync_confines : Keeps (Confines allowed) sync := by
  intro w
  refine ⟨refl w.graph, fun {node index} hkey => .inl ?_, .inl⟩
  change (node, index) ∈ (w.memo.sync w.graph.generation).partials at hkey
  change (w.memo.sync w.graph.generation).generation = _ ∧ _
  unfold Memo.sync at hkey ⊢
  split
  · next hsame =>
    rw [if_pos hsame] at hkey
    exact ⟨rfl, hkey⟩
  · next hother =>
    rw [if_neg hother] at hkey
    simp at hkey

theorem sync_gives (w : Workspace) :
    Gives (Confines allowed) sync w fun _ w' => w'.graph = w.graph := by
  intro _ w' hrun
  refine ⟨(sync_confines.gives w () w' hrun).1, ?_⟩
  cases hrun
  rfl

theorem literal_gives_node (hg : w.graph.WellFormed) (v : Float) :
    Gives (Confines allowed) (literal v) w fun h w' => w'.graph.node h = .ok (.lit v) := by
  intro h w' hrun
  refine ⟨((literal_confines v).gives w h w' hrun).1, ?_⟩
  cases hrun
  exact hg.node_literal v

theorem keep_confines (node var d : Handle) : Keeps (Confines allowed) (keep node var d) :=
  fun w => ⟨refl w.graph, fun hkey => .inl ⟨rfl, hkey⟩, .inl⟩

/-- A local partial is built for an operand it is allowed for. -/
theorem partialOf_confines {node : Handle} {app : Application} {index : Nat}
    (hn : w.graph.node node = .ok (.app app)) (hallowed : allowed node index) :
    Gives (Confines allowed) (partialOf node app index) w fun _ _ => True := by
  refine .bind (consult_gives _ w) fun known w₁ _ hread => ?_
  obtain ⟨rfl, -⟩ := hread
  cases known with
  | some p => exact .pure trivial
  | none =>
      have hbuild : Gives (Confines allowed)
          (onGraph ((app.op.partialBy index).build node app.args)) w₁ fun _ _ => True := by
        have hgrows := BuildM.formula_keeps node app.args (app.op.partialBy index)
        intro p w₂ hrun
        have hend : endState (onGraph ((app.op.partialBy index).build node app.args)) w₁ = w₂ :=
          endState_of_ok hrun
        by_cases hln : .ln ∈ (app.op.partialBy index).operators
        · obtain ⟨hop, hindex⟩ := Op.eq_pow_of_ln_mem_partialBy hln
          rw [endState_onGraph] at hend
          subst hend
          have hn' := (hgrows w₁.graph).extends.node_eq hn
          refine ⟨⟨hgrows w₁.graph, fun hkey => .inl ⟨rfl, hkey⟩, fun _ => .inr ?_⟩, trivial⟩
          exact ⟨node, index, app.args, hallowed, hindex, hop ▸ hn'⟩
        · have hother : ∀ made ∈ (app.op.partialBy index).operators, made ≠ .ln :=
            fun made hmade heq => hln (heq ▸ hmade)
          have hkeeps : Keeps (Confines allowed) _ :=
            onGraph_confines hgrows (BuildM.formula_addsNo (by decide) node app.args _ hother)
          exact ⟨hend ▸ hkeeps w₁, trivial⟩
      have hrecord (p : Handle) : Keeps (Confines allowed) (record fun memo =>
          { memo with partials := memo.partials.insert (node, index) p }) := by
        refine fun w => ⟨refl w.graph, fun {node' index'} hkey => ?_, .inl⟩
        change (node', index') ∈ w.memo.partials.insert (node, index) p at hkey
        rcases Std.HashMap.mem_insert.mp hkey with hself | hold
        · cases eq_of_beq hself
          exact .inr hallowed
        · exact .inl ⟨rfl, hold⟩
      exact .bind hbuild fun p w₂ _ _ => .bind ((hrecord p).gives w₂) fun _ _ _ _ => .pure trivial

/-- The chain rule asks for the local partials of operands whose tangents are no zero literals. -/
theorem chainFrom_confines {node : Handle} {app : Application} {index : Nat}
    {tangents : List Handle} {total : Option Handle} (hn : w.graph.node node = .ok (.app app))
    (hallowed : ∀ k t, tangents[k]? = some t → w.graph.isZero t = true ∨ allowed node (index + k)) :
    Gives (Confines allowed) (chainFrom node app index tangents total) w fun _ _ => True := by
  induction tangents generalizing w index total with
  | nil =>
      cases total with
      | none => exact (literal_confines 0.0).gives w
      | some total => exact .pure trivial
  | cons tangent rest ih =>
      -- the rest of the sum, from any later state and with any total
      have hnext : ∀ {w' : Workspace} {total : Option Handle}, w.graph.Grows w'.graph →
          Gives (Confines allowed) (chainFrom node app (index + 1) rest total) w' fun _ _ => True :=
        fun hgrows => ih (hgrows.extends.node_eq hn) fun k t ht => by
          rw [Nat.add_assoc, Nat.add_comm 1]
          exact (hallowed (k + 1) t ht).imp_left hgrows.extends.isZero
      rw [chainFrom]
      refine .bind (consult_gives _ w) fun zeroTangent w₁ _ hread => ?_
      obtain ⟨rfl, hzero⟩ := hread
      split
      · exact hnext (refl w₁.graph)
      next hnonzero =>
      have hself : allowed node index := by
        refine (hallowed 0 tangent rfl).resolve_left fun htangent => hnonzero ?_
        rw [← Except.ok.inj hzero, htangent]
      refine .bind (partialOf_confines hn hself) fun p w₂ hw₂ _ => ?_
      refine .bind ((consult_keeps _).gives w₂) fun zeroPartial w₃ hw₃ _ => ?_
      have hlater := hw₂.grows.trans hw₃.grows
      split
      · exact hnext hlater
      refine .bind ((operation_confines (by decide) [p, tangent]).gives w₃) fun term w₄ hw₄ _ => ?_
      cases total with
      | none =>
          exact .bind ((Keeps.pure term).gives w₄) fun total w₅ hw₅ _ =>
            hnext (hlater.trans (hw₄.grows.trans hw₅.grows))
      | some before =>
          exact .bind ((operation_confines (by decide) [before, term]).gives w₄)
            fun total w₅ hw₅ _ => hnext (hlater.trans (hw₄.grows.trans hw₅.grows))

/-- Zero tangents add up to the literal zero. -/
theorem chainFrom_of_isZero (node : Handle) (app : Application) (index : Nat)
    {tangents : List Handle} (hzero : ∀ t ∈ tangents, w.graph.isZero t = true) :
    chainFrom node app index tangents none w = literal 0.0 w := by
  induction tangents generalizing index with
  | nil => rfl
  | cons tangent rest ih =>
      obtain ⟨hhead, hrest⟩ := List.forall_mem_cons.mp hzero
      have hread : isZero tangent w = .ok (w.graph.isZero tangent) w := rfl
      rw [chainFrom, bind_of_ok hread, if_pos hhead]
      exact ih (index + 1) hrest

end DiffM

end ExprGraph
