import Mathlib
import ExprGraph.Proofs.Graph.Below
import ExprGraph.Proofs.Derivative.Blind
import ExprGraph.Proofs.Derivative.Stock

/-!
# The cost of differentiation

Every way of differentiating passes each node below what it is asked for once, and a node costs at
most ten nodes: those of its local partials, and a product and a sum for every operand.  In a sweep
from users to operands the sums are made at the operands, so there every term that has been
contributed owes the sum it will take part in.  None of this depends on what the memo has.
-/

namespace ExprGraph

open Workspace

open ExprGraph.Graph

namespace Affords

variable {α β : Type} {R : Workspace → Workspace → Prop} [IsPreorder Workspace R]
  {μ : Workspace → ℕ} {credit : ℕ} {w : Workspace} {left : β → ℕ}

/-- Reading the graph is free. -/
theorem bind_inspect {f : Graph → Except GraphError α} {k : α → DiffM β}
    (hk : ∀ a, f w.graph = .ok a → Affords R μ credit (k a) w left) :
    Affords R μ credit (DiffM.inspect f >>= k) w left := by
  refine bind_of_keeps_eq (fun w' => ?_) fun a hrun => hk a (DiffM.eq_of_inspect hrun).2
  rw [DiffM.inspect, DiffM.endState_onGraph]
  exact congrArg (Workspace.mk · w'.memo) (BuildM.inspect_keeps (R := Eq) f w'.graph)

/-- Reading graph and memo is free. -/
theorem bind_consult {f : Workspace → Except Failure α} {k : α → DiffM β}
    (hk : ∀ a, f w = .ok a → Affords R μ credit (k a) w left) :
    Affords R μ credit (DiffM.consult f >>= k) w left := by
  refine bind_of_keeps_eq (DiffM.consult_keeps f) fun a hrun => hk a ?_
  cases hf : f w with
  | ok b =>
      cases (DiffM.consult_eq hf).symm.trans hrun
      rfl
  | error e =>
      rw [DiffM.consult, hf] at hrun
      cases hrun

end Affords

namespace DiffM

variable {α : Type} {w : Workspace} {credit : ℕ} {node : Handle} {app : Application}

theorem onGraph_costs {μ : Graph → ℕ} {work : BuildM α}
    (hwork : Costs Graph.Grows μ credit work w.graph) :
    Costs Workspace.Grows (fun w => μ w.graph) credit (onGraph work) w := by
  cases hrun : work w.graph with
  | ok a graph' =>
      exact .of_ok (onGraph_of_ok hrun) (endState_of_ok hrun ▸ hwork.related)
        (hwork.remains hrun)
  | error e graph' =>
      exact .of_error (onGraph_of_error hrun) (endState_of_error hrun ▸ hwork.related)
        (endState_of_error hrun ▸ hwork.covered)

theorem sync_costs (μ : Graph → ℕ) : Costs Workspace.Grows (fun w => μ w.graph) 0 sync w :=
  .of_ok rfl (refl w.graph) le_rfl

/-- Looking whether the memo belongs to the graph leaves the graph alone. -/
theorem bind_sync {R : Workspace → Workspace → Prop} [IsPreorder Workspace R] {μ : Workspace → ℕ}
    {k : Unit → DiffM α} (hsync : Costs R μ 0 sync w)
    (hk : ∀ w' : Workspace, w'.graph = w.graph → Costs R μ credit (k ()) w') :
    Costs R μ credit (sync >>= k) w := by
  refine .bind_costs hsync (Nat.zero_add _).le fun _ w' hrun _ => hk w' ?_
  cases hrun
  rfl

theorem record_costs (μ : Graph → ℕ) (f : Memo → Memo) :
    Costs Workspace.Grows (fun w => μ w.graph) 0 (record f) w :=
  .of_ok rfl (refl w.graph) le_rfl

/-! ### One node -/

/-- A local partial is paid for by the parts it needs. -/
theorem partialOf_costs {index : Nat} (hg : w.graph.WellFormed)
    (hn : w.graph.node node = .ok (.app app)) (hindex : index < app.op.arity) :
    Costs Workspace.Grows (fun w => app.outlay node w.graph) 0 (partialOf node app index) w := by
  refine .bind_consult fun known _ => ?_
  cases known with
  | some p => exact .pure le_rfl
  | none =>
      refine .bind (onGraph_costs
        (BuildM.formula_costs _ (app.op.parts_subset_stock hindex) hg hn)) fun p w' _ _ => ?_
      exact .bind (record_costs _ _) fun _ _ _ _ => .pure le_rfl

theorem operation_costs (op : Op) (args : List Handle) :
    Costs Workspace.Grows (fun w => app.outlay node w.graph) 1 (operation op args) w :=
  onGraph_costs (Application.outlay_costs (BuildM.operation_costs op args))

/-- The chain rule costs a product and a sum for every operand.  Where there is no term yet one of
the sums is saved, which pays for a zero if there will be none at all. -/
theorem chainFrom_costs {index : Nat} {tangents : List Handle} {total : Option Handle}
    (hg : w.graph.WellFormed) (hn : w.graph.node node = .ok (.app app))
    (hindex : index + tangents.length ≤ app.op.arity) (hcredit : 2 * tangents.length ≤ credit)
    (hzero : total = none → 1 ≤ credit) :
    Costs Workspace.Grows (fun w => app.outlay node w.graph) credit
      (chainFrom node app index tangents total) w := by
  induction tangents generalizing index total w credit with
  | nil =>
      cases total with
      | none =>
          exact (onGraph_costs (Application.outlay_costs (BuildM.literal_costs 0.0))).trade
            (hzero rfl) fun _ => by have := hzero rfl; omega
      | some total => exact .pure (Nat.zero_le _)
  | cons tangent rest ih =>
      rw [List.length_cons] at hindex hcredit
      rw [chainFrom]
      refine .bind_consult fun zeroTangent _ => ?_
      split
      · exact ih hg hn (by omega) (by omega) hzero
      refine .bind_costs (partialOf_costs hg hn (by omega)) (Nat.zero_add credit).le
        fun p w₁ _ hgrows₁ => ?_
      have hg₁ := hg.grows hgrows₁
      have hn₁ := hgrows₁.extends.node_eq hn
      refine .bind_consult fun zeroPartial _ => ?_
      split
      · exact ih hg₁ hn₁ (by omega) (by omega) hzero
      have hone : 1 + (credit - 1) ≤ credit := by omega
      refine .bind_costs (operation_costs .mul [p, tangent]) hone fun term w₂ _ hgrows₂ => ?_
      have hg₂ := hg₁.grows hgrows₂
      have hn₂ := hgrows₂.extends.node_eq hn₁
      cases total with
      | none => exact ih hg₂ hn₂ (by omega) (by omega) (by simp)
      | some before =>
          have htwo : 1 + (credit - 2) ≤ credit - 1 := by omega
          refine .bind_costs (operation_costs .add [before, term]) htwo
            fun total w₃ _ hgrows₃ => ?_
          exact ih (hg₂.grows hgrows₃) (hgrows₃.extends.node_eq hn₂) (by omega) (by omega)
            (by simp)

/-- The derivative of an application costs ten nodes. -/
theorem chain_costs {tangents : List Handle} (hg : w.graph.WellFormed)
    (hn : w.graph.node node = .ok (.app app)) (htangents : tangents.length = app.args.length) :
    Costs Workspace.Grows (fun w => w.graph.size) 10 (chain node app tangents) w := by
  have harity := hg.arity hn
  have hpos := app.op.arity_pos
  have hsum : Costs Workspace.Grows (fun w => app.outlay node w.graph) (2 * app.op.arity)
      (chain node app tangents) w :=
    chainFrom_costs hg hn (by omega) (by omega) fun _ => by omega
  refine hsum.of_potential (fun _ => Application.size_le_outlay) ?_
  have hstock := app.op.stock_le
  have hstart := app.outlay_le node w.graph
  omega

/-! ### Derivatives -/

/-- A derivative costs what it costs to pass each node below once. -/
theorem derivative_costs_of_pass {R : Workspace → Workspace → Prop} [IsPreorder Workspace R]
    {μ : Workspace → ℕ} {price : ℕ} {var : Handle} (hg : w.graph.WellFormed)
    (hgrows : ∀ {w w' : Workspace}, R w w' → w.graph.Grows w'.graph) (hsync : Costs R μ 0 sync w)
    (hpass : ∀ h ∈ w.graph.below [node], ∀ w' : Workspace, w'.graph.WellFormed →
      Costs R μ price (differentiate var h) w') :
    Costs R μ (price * (w.graph.below [node]).ncard) (derivative node var) w := by
  refine .bind_inspect fun _ hvalid => .bind_inspect fun _ _ => ?_
  have hlive : ∀ root ∈ [node], w.graph.Live root := by
    simpa using validate_eq_ok_iff.mp hvalid node List.mem_cons_self
  refine bind_sync hsync fun w₁ hgraph => ?_
  rw [← hgraph] at hg hlive hpass ⊢
  refine .bind_consult fun found _ => ?_
  cases found with
  | some d => exact .pure (Nat.zero_le _)
  | none =>
      refine .bind_consult fun pending hpending => ?_
      obtain ⟨order, hrun, horder⟩ := hg.orderSkipping_eq
        (fun a => w₁.memo.derivatives.contains (a, var)) hlive
      cases hrun.symm.trans hpending
      have hloop : Costs R μ (price * pending.length) (pending.forM (differentiate var)) w₁ :=
        .forM_const fun h hh w' hR => hpass h (horder.reached hh) w' (hg.grows (hgrows hR))
      have hprice : price * pending.length + 0 ≤ price * (w₁.graph.below [node]).ncard :=
        Nat.mul_le_mul_left price (horder.length_le_ncard hg hlive)
      exact .bind_costs hloop hprice fun _ _ _ _ => .of_keeps_eq (consult_keeps _)

theorem differentiate_costs {var : Handle} (hg : w.graph.WellFormed) :
    Costs Workspace.Grows (fun w => w.graph.size) 10 (differentiate var node) w := by
  have hleaf : ∀ v, Costs Workspace.Grows (fun w => w.graph.size) 10
      (literal v >>= keep node var) w := by
    intro v
    have hone : 1 + 0 ≤ 10 := by decide
    exact .bind_costs (onGraph_costs (BuildM.literal_costs v)) hone fun _ _ _ _ =>
      record_costs _ _
  refine .bind_inspect fun n hn => ?_
  cases n with
  | var id name => exact hleaf _
  | lit v => exact hleaf _
  | app app =>
      refine .bind_of_keeps_eq (.mapM (fun _ => consult_keeps _) _) fun tangents hrun => ?_
      have hlength := length_of_mapM_ok hrun
      exact .bind_costs (chain_costs hg hn hlength) le_rfl fun _ _ _ _ => record_costs _ _

/-- A derivative costs ten nodes for every node below. -/
theorem derivative_costs (hg : w.graph.WellFormed) (node var : Handle) :
    Costs Workspace.Grows (fun w => w.graph.size) (10 * (w.graph.below [node]).ncard)
      (derivative node var) w :=
  derivative_costs_of_pass hg id (sync_costs Graph.size) fun _ _ _ hg' => differentiate_costs hg'

end DiffM

/-- The derivatives that a memo has and has not had before.  A memo that has started over has none
from before. -/
def Memo.added (before after : Memo) : Set (Handle × Handle) :=
  {key | key ∈ after.derivatives ∧
    ¬ (after.generation = before.generation ∧ key ∈ before.derivatives)}

/-- The graph has grown, and the derivatives that the memo has are from before or among those that
are allowed. -/
structure Workspace.AddsOnly (keys : Set (Handle × Handle)) (w w' : Workspace) : Prop where
  grows : w.graph.Grows w'.graph
  derivatives {key : Handle × Handle} : key ∈ w'.memo.derivatives →
    (w'.memo.generation = w.memo.generation ∧ key ∈ w.memo.derivatives) ∨ key ∈ keys

namespace Workspace

variable {keys : Set (Handle × Handle)} {w w' : Workspace}

instance : IsPreorder Workspace (AddsOnly keys) where
  refl w := ⟨refl w.graph, fun hkey => .inl ⟨rfl, hkey⟩⟩
  trans _ _ _ hfirst hrest := by
    refine ⟨hfirst.grows.trans hrest.grows, fun hkey => ?_⟩
    rcases hrest.derivatives hkey with ⟨hgeneration, hbefore⟩ | hnew
    · exact (hfirst.derivatives hbefore).imp_left fun hold => ⟨hgeneration.trans hold.1, hold.2⟩
    · exact .inr hnew

theorem keptBySteps_addsOnly : KeptBySteps (AddsOnly keys) where
  onGraph {_ work} hgrows w := by
    rw [DiffM.endState_onGraph]
    exact ⟨hgrows w.graph, fun hkey => .inl ⟨rfl, hkey⟩⟩
  sync w := by
    refine ⟨refl w.graph, fun {key} hkey => .inl ?_⟩
    change key ∈ (w.memo.sync w.graph.generation).derivatives at hkey
    change (w.memo.sync w.graph.generation).generation = _ ∧ _
    unfold Memo.sync at hkey ⊢
    split
    · next hsame =>
      rw [if_pos hsame] at hkey
      exact ⟨rfl, hkey⟩
    · next hother =>
      rw [if_neg hother] at hkey
      simp at hkey
  recordPartial _ _ _ w := ⟨refl w.graph, fun hkey => .inl ⟨rfl, hkey⟩⟩

theorem AddsOnly.added_subset (hw : w.AddsOnly keys w') : w.memo.added w'.memo ⊆ keys :=
  fun _ hkey => (hw.derivatives hkey.1).resolve_left hkey.2

/-- A memo grows by no more than it is allowed to remember. -/
theorem AddsOnly.size_le (hw : w.AddsOnly keys w') (hkeys : keys.Finite) :
    w'.memo.size ≤ w.memo.size + keys.ncard := by
  have hsize : ∀ memo : Memo, memo.derivatives.keys.toFinset.card = memo.size := fun memo => by
    rw [List.toFinset_card_of_nodup Std.HashMap.nodup_keys, Std.HashMap.length_keys, Memo.size]
  have hsub : w'.memo.derivatives.keys.toFinset ⊆
      w.memo.derivatives.keys.toFinset ∪ hkeys.toFinset := by
    intro key hkey
    rw [List.mem_toFinset, Std.HashMap.mem_keys] at hkey
    rw [Finset.mem_union, List.mem_toFinset, Std.HashMap.mem_keys, Set.Finite.mem_toFinset]
    exact (hw.derivatives hkey).imp_left And.right
  rw [← hsize, ← hsize, Set.ncard_eq_toFinset_card keys hkeys]
  exact (Finset.card_le_card hsub).trans (Finset.card_union_le _ _)

end Workspace

namespace DiffM

variable {α : Type} {w : Workspace} {credit : ℕ} {node : Handle} {app : Application}

/-- A node that is passed has its derivative remembered. -/
theorem differentiate_addsOnly {keys : Set (Handle × Handle)} {var : Handle}
    (hkey : (node, var) ∈ keys) : Keeps (AddsOnly keys) (differentiate var node) := by
  have hkeep : ∀ d, Keeps (AddsOnly keys) (keep node var d) := by
    intro d w
    refine ⟨refl w.graph, fun {key} hfound => ?_⟩
    change key ∈ w.memo.derivatives.insert (node, var) d at hfound
    rw [Std.HashMap.mem_insert, beq_iff_eq] at hfound
    rcases hfound with rfl | hold
    · exact .inr hkey
    · exact .inl ⟨rfl, hold⟩
  refine .bind (keptBySteps_addsOnly.inspect _) fun n => ?_
  cases n with
  | var id name => exact .bind (keptBySteps_addsOnly.literal _) hkeep
  | lit v => exact .bind (keptBySteps_addsOnly.literal _) hkeep
  | app app =>
      exact .bind (.mapM (fun _ => consult_keeps _) _) fun tangents =>
        .bind (keptBySteps_addsOnly.chainFrom node app 0 tangents none) hkeep

/-- What a derivative adds to the memo are derivatives of the nodes below by its variable. -/
theorem derivative_addsOnly (hg : w.graph.WellFormed) (node var : Handle) :
    w.AddsOnly (w.graph.below [node] ×ˢ {var}) (endState (derivative node var) w) := by
  have hfree : Costs (AddsOnly (w.graph.below [node] ×ˢ {var})) (fun _ => 0) _
      (derivative node var) w :=
    derivative_costs_of_pass hg AddsOnly.grows
      (.of_keeps keptBySteps_addsOnly.sync) fun h hh w' _ =>
        .of_keeps (differentiate_addsOnly ⟨hh, rfl⟩)
  exact hfree.related

/-! ### Forward sweeps -/

theorem tangentOf_keeps_eq (tangents : Tangents) (h : Handle) : Keeps Eq (tangentOf tangents h) :=
  KeptBySteps.tangentOf tangents h

theorem sweepForward_costs {seeds tangents : Tangents} {zero : Handle} (hg : w.graph.WellFormed) :
    Costs Workspace.Grows (fun w => w.graph.size) 10 (sweepForward seeds zero tangents node) w := by
  refine .bind_inspect fun n hn => ?_
  cases n with
  | var id name => exact .pure (Nat.zero_le _)
  | lit v => exact .pure (Nat.zero_le _)
  | app app =>
      refine .bind_of_keeps_eq (.mapM (tangentOf_keeps_eq tangents) _) fun ts hrun => ?_
      have hlength := length_of_mapM_ok hrun
      exact .bind_costs (chain_costs hg hn hlength) le_rfl fun _ _ _ _ => .pure le_rfl

/-- A forward sweep costs ten nodes for every node below, and a zero. -/
theorem forward_costs (hg : w.graph.WellFormed) (roots : List Handle) (seeds : Tangents) :
    Costs Workspace.Grows (fun w => w.graph.size) (1 + 10 * (w.graph.below roots).ncard)
      (forward roots seeds) w := by
  refine bind_sync (sync_costs Graph.size) fun w₁ hgraph => ?_
  rw [← hgraph] at hg ⊢
  refine .bind_consult fun order hread => ?_
  rw [(hg.isOrder_of_order hread).ncard_below]
  refine .bind_costs (onGraph_costs (BuildM.literal_costs 0.0)) le_rfl fun zero w₂ _ hgrows₂ => ?_
  have hsweep : Costs Workspace.Grows (fun w => w.graph.size) (10 * order.length)
      (order.foldlM (sweepForward seeds zero) {}) w₂ :=
    .foldlM_const (fun _ _ _ _ hgrows₃ =>
      sweepForward_costs (hg.grows (Graph.Grows.trans hgrows₂ hgrows₃))) {}
  exact .bind_costs hsweep le_rfl fun tangents _ _ _ =>
    .of_keeps_eq (.mapM (tangentOf_keeps_eq tangents) roots)

/-- A variable listed once more costs a sum. -/
theorem seedTangents_costs (pairs : List (Handle × Handle)) (tangents : Tangents) :
    Costs Workspace.Grows (fun w => w.graph.size) pairs.length (seedTangents pairs tangents) w := by
  induction pairs generalizing tangents w with
  | nil => exact .pure le_rfl
  | cons pair rest ih =>
      obtain ⟨var, seed⟩ := pair
      rw [seedTangents, List.length_cons]
      cases tangents[var]? with
      | none => exact (ih _).trade (Nat.le_succ _) fun _ => by omega
      | some before =>
          exact .bind_costs (onGraph_costs (BuildM.operation_costs .add [before, seed]))
            (Nat.add_comm 1 _).le fun _ _ _ _ => ih _

theorem declareMany_costs (stem : String) (count : Nat) :
    Costs Workspace.Grows (fun w => w.graph.size) count
      (onGraph (BuildM.extend fun g => g.declareMany stem count)) w :=
  onGraph_costs (BuildM.declareMany_costs stem count)

/-- Arguments are checked for free, and when the check is passed the outputs are live. -/
theorem bind_checkArguments {outputs vars : List Handle} {k : Unit → DiffM α}
    (hk : (∀ out ∈ outputs, w.graph.Live out) →
      Costs Workspace.Grows (fun w => w.graph.size) credit (k ()) w) :
    Costs Workspace.Grows (fun w => w.graph.size) credit (checkArguments outputs vars >>= k) w := by
  rw [checkArguments, bind_assoc]
  exact .bind_inspect fun _ hvalid => .bind_inspect fun _ _ =>
    hk (validate_eq_ok_iff.mp hvalid)

/-- The product with the Jacobian costs a seed for every variable besides the sweep. -/
theorem jacobianTimes_costs (hg : w.graph.WellFormed) (outputs vars : List Handle) :
    Costs Workspace.Grows (fun w => w.graph.size)
      (10 * (w.graph.below outputs).ncard + 2 * vars.length + 1)
      (jacobianTimes outputs vars) w := by
  refine bind_checkArguments fun hlive => ?_
  set nodes := (w.graph.below outputs).ncard
  have hcredit : vars.length + (vars.length + (1 + 10 * nodes)) ≤
      10 * nodes + 2 * vars.length + 1 := by omega
  refine .bind_costs (declareMany_costs "v" vars.length) hcredit fun seeds w₁ _ hgrows₁ => ?_
  have hpairs : (vars.zip seeds).length + (1 + 10 * nodes) ≤
      vars.length + (1 + 10 * nodes) := by simp
  refine .bind_costs (seedTangents_costs (vars.zip seeds) {}) hpairs fun tangents w₂ _ hgrows₂ => ?_
  have hgrows : w.graph.Grows w₂.graph := Graph.Grows.trans hgrows₁ hgrows₂
  have hsweep := forward_costs (hg.grows hgrows) outputs tangents
  rw [hg.below_extends hgrows.extends hlive] at hsweep
  exact .bind_costs hsweep le_rfl fun _ _ _ _ => .pure le_rfl

/-! ### Reverse sweeps -/

/-- What is owed for the sum of the terms that have been contributed to a node. -/
def Adjoints.owed (adj : Adjoints) (h : Handle) : ℕ :=
  match adj.terms[h]? with
  | none => 0
  | some terms => max 1 terms.length

/-- What is owed at the nodes that have not been passed. -/
def Adjoints.debt (adj : Adjoints) (order : List Handle) : ℕ := (order.map adj.owed).sum

theorem Adjoints.debt_cons (adj : Adjoints) (h : Handle) (order : List Handle) :
    adj.debt (h :: order) = adj.owed h + adj.debt order :=
  rfl

theorem Adjoints.debt_empty (order : List Handle) : ({} : Adjoints).debt order = 0 := by
  have howed : ({} : Adjoints).owed = fun _ => 0 := by
    funext h
    simp [owed]
  simp [debt, howed]

theorem Adjoints.owed_contribute (adj : Adjoints) (node term h : Handle) :
    (adj.contribute node term).owed h ≤ adj.owed h + if h = node then 1 else 0 := by
  by_cases hself : h = node
  · subst hself
    cases hterms : adj.terms[h]? <;> simp [owed, contribute, hterms]
  · have hother : (node == h) = false := by simpa using Ne.symm hself
    simp [owed, contribute, Std.HashMap.getElem?_insert, hother]

/-- A contribution adds a term at one node. -/
theorem Adjoints.debt_contribute (adj : Adjoints) (node term : Handle) {order : List Handle}
    (hnodup : order.Nodup) : (adj.contribute node term).debt order ≤ adj.debt order + 1 := by
  -- the count makes the claim one for every list, so that the induction goes through
  have hsum : (adj.contribute node term).debt order ≤ adj.debt order + order.count node := by
    induction order with
    | nil => exact le_rfl
    | cons h rest ih =>
        have hhead := adj.owed_contribute node term h
        have hrest := ih hnodup.of_cons
        rw [debt_cons, debt_cons, List.count_cons]
        simp only [beq_iff_eq]
        omega
  exact hsum.trans (Nat.add_le_add_left (List.nodup_iff_count_le_one.mp hnodup node) _)

theorem Adjoints.debt_erase (adj : Adjoints) (node : Handle) (order : List Handle) :
    ({ adj with terms := adj.terms.erase node } : Adjoints).debt order ≤ adj.debt order := by
  refine List.sum_le_sum fun h _ => ?_
  unfold owed
  simp only [Std.HashMap.getElem?_erase]
  cases node == h
  · exact le_rfl
  · exact Nat.zero_le _

theorem seedAdjoints_debt (g : Graph) (active : Std.HashSet Handle)
    (pairs : List (Handle × Handle)) (adj : Adjoints) {order : List Handle}
    (hnodup : order.Nodup) :
    (seedAdjoints g active pairs adj).debt order ≤ adj.debt order + pairs.length := by
  induction pairs generalizing adj with
  | nil => exact le_rfl
  | cons pair rest ih =>
      obtain ⟨root, seed⟩ := pair
      have hmore := adj.debt_contribute root seed hnodup
      rw [seedAdjoints, List.length_cons]
      refine (ih _).trans ?_
      split <;> omega

/-- Passing an adjoint on costs a product for every operand, and what the terms will owe. -/
theorem distribute_costs {active : Std.HashSet Handle} {adjoint : Handle} {index : Nat}
    {args order : List Handle} {adj : Adjoints} (hg : w.graph.WellFormed)
    (hn : w.graph.node node = .ok (.app app)) (hindex : index + args.length ≤ app.op.arity)
    (hnodup : order.Nodup) :
    Affords Workspace.Grows (fun w => app.outlay node w.graph)
      (2 * args.length + adj.debt order) (distribute active node app adjoint index args adj) w
      fun adj' => adj'.debt order := by
  induction args generalizing index adj w with
  | nil => exact .pure (Nat.le_add_left _ _)
  | cons arg rest ih =>
      rw [List.length_cons] at hindex ⊢
      have hskip : ∀ {w' : Workspace}, w.graph.Grows w'.graph →
          Affords Workspace.Grows (fun w => app.outlay node w.graph)
            (2 * (rest.length + 1) + adj.debt order)
            (distribute active node app adjoint (index + 1) rest adj) w'
            fun adj' => adj'.debt order := fun hgrows =>
        (ih (hg.grows hgrows) (hgrows.extends.node_eq hn) (by omega)).trade (by omega)
          fun _ => by omega
      rw [distribute]
      split
      · refine .bind_costs (partialOf_costs hg hn (by omega)) (Nat.zero_add _).le
          fun p w₁ _ hgrows₁ => ?_
        refine .bind_consult fun zeroPartial _ => ?_
        split
        · exact hskip hgrows₁
        have hone : 1 + (2 * rest.length + 1 + adj.debt order) ≤
            2 * (rest.length + 1) + adj.debt order := by omega
        refine .bind_costs (operation_costs .mul [p, adjoint]) hone fun term w₂ _ hgrows₂ => ?_
        have hgrows := Graph.Grows.trans hgrows₁ hgrows₂
        have hmore := adj.debt_contribute arg term hnodup
        exact (ih (hg.grows hgrows) (hgrows.extends.node_eq hn) (by omega)).trade (by omega)
          fun _ => by omega
      · exact hskip (refl w.graph)

/-- A node costs ten nodes, and the sum of its terms, which it no longer owes. -/
theorem sweepReverse_costs {active : Std.HashSet Handle} {adj : Adjoints} {order : List Handle}
    (hg : w.graph.WellFormed) (hnodup : order.Nodup) :
    Affords Workspace.Grows (fun w => w.graph.size) (10 + adj.debt (node :: order))
      (sweepReverse active adj node) w fun adj' => adj'.debt order := by
  rw [Adjoints.debt_cons]
  unfold sweepReverse
  cases hterms : adj.terms[node]? with
  | none => exact .pure (by omega)
  | some terms =>
      set rest : Adjoints := { adj with terms := adj.terms.erase node }
      have hless : rest.debt order ≤ adj.debt order := adj.debt_erase node order
      have hsum : max 1 terms.length + (10 + rest.debt order) ≤
          10 + (adj.owed node + adj.debt order) := by
        simp only [Adjoints.owed, hterms]
        omega
      refine .bind_costs (onGraph_costs (BuildM.sum_costs terms)) hsum
        fun adjoint w₁ _ hgrows₁ => ?_
      refine .bind_inspect fun n hn => ?_
      cases n with
      | var id name => exact .pure (Nat.le_add_left (rest.debt order) 10)
      | lit v => exact .pure (Nat.le_add_left _ _)
      | app app =>
          have hg₁ := hg.grows hgrows₁
          have harity := hg₁.arity hn
          refine (distribute_costs hg₁ hn (by omega) hnodup).of_potential
            (fun _ => Application.size_le_outlay) ?_
          have hstock := app.op.stock_le
          have hstart := app.outlay_le node w₁.graph
          omega

/-- A reverse sweep costs ten nodes for every node below, a sum for every seed, and a zero. -/
theorem reverse_costs (hg : w.graph.WellFormed) (roots seeds vars : List Handle) :
    Costs Workspace.Grows (fun w => w.graph.size)
      (10 * (w.graph.below roots).ncard + roots.length + 1) (reverse roots seeds vars) w := by
  refine bind_sync (sync_costs Graph.size) fun w₁ hgraph => ?_
  rw [← hgraph] at hg ⊢
  refine .bind_consult fun order hread => .bind_inspect fun active _ =>
    .bind_consult fun seeded hseeded => ?_
  have horder := hg.isOrder_of_order hread
  have hnodup : order.reverse.Nodup := List.nodup_reverse.mpr horder.nodup
  have hdebt : seeded.debt order.reverse ≤ roots.length := by
    obtain rfl := Except.ok.inj hseeded
    have hpairs := seedAdjoints_debt w₁.graph active (roots.zip seeds) {} hnodup
    rw [Adjoints.debt_empty, List.length_zip] at hpairs
    omega
  have hsweep : Affords Workspace.Grows (fun w => w.graph.size)
      (10 * order.reverse.length + seeded.debt order.reverse)
      (order.reverse.foldlM (sweepReverse active) seeded) w₁ fun adj => adj.debt [] := by
    -- ten nodes are left for every node that has not been passed, and what is owed at these
    refine (Affords.foldlM (fun left (adj : Adjoints) => 10 * left.length + adj.debt left)
      (fun passed h left hsplit adj w₂ hgrows => ?_) seeded).trade le_rfl fun _ => by simp
    have hleft : left.Nodup := by
      rw [hsplit] at hnodup
      exact hnodup.of_append_right.of_cons
    refine (sweepReverse_costs (hg.grows hgrows) hleft).trade ?_ fun _ => ?_ <;>
      rw [List.length_cons] <;> omega
  rw [List.length_reverse, ← horder.ncard_below] at hsweep
  have hpaid : Costs Workspace.Grows (fun w => w.graph.size)
      (10 * (w₁.graph.below roots).ncard + roots.length)
      (order.reverse.foldlM (sweepReverse active) seeded) w₁ :=
    hsweep.trade (by omega) fun _ => by omega
  exact .bind_costs hpaid le_rfl fun adj _ _ _ =>
    .bind_costs (onGraph_costs (BuildM.literal_costs 0.0)) le_rfl fun _ _ _ _ => .pure le_rfl

/-- The product with the transposed Jacobian costs two nodes for every output besides the sweep,
and nothing for the variables. -/
theorem transposeTimes_costs (hg : w.graph.WellFormed) (outputs vars : List Handle) :
    Costs Workspace.Grows (fun w => w.graph.size)
      (10 * (w.graph.below outputs).ncard + 2 * outputs.length + 1)
      (transposeTimes outputs vars) w := by
  refine bind_checkArguments fun hlive => ?_
  set nodes := (w.graph.below outputs).ncard
  have hcredit : outputs.length + (10 * nodes + outputs.length + 1) ≤
      10 * nodes + 2 * outputs.length + 1 := by omega
  refine .bind_costs (declareMany_costs "w" outputs.length) hcredit fun seeds w₁ _ hgrows => ?_
  have hsweep := reverse_costs (hg.grows hgrows) outputs seeds vars
  rw [hg.below_extends (Graph.Grows.extends hgrows) hlive] at hsweep
  exact .bind_costs hsweep le_rfl fun _ _ _ _ => .pure le_rfl

end DiffM

end ExprGraph
