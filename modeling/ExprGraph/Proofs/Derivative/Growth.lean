import Mathlib
import ExprGraph.Session.Call
import ExprGraph.Proofs.Graph.Growth

/-!
# Growth during differentiation

Every call lets its graph grow and does nothing else to it, whatever its arguments and its memo are,
and whether or not it succeeds.  Calls are sequences of few parts, and what holds of the parts and
of sequences holds of all calls.  In the same way a relation of workspaces that the steps of a sweep
keep is kept by the sweep.
-/

namespace ExprGraph

open ExprGraph.Graph

namespace Workspace

/-- The graph of a workspace grows; nothing is said of the memo. -/
def Grows (w w' : Workspace) : Prop := w.graph.Grows w'.graph

instance : IsPreorder Workspace Grows where
  refl w := refl w.graph
  trans _ _ _ hfirst hrest := Graph.Grows.trans hfirst hrest

end Workspace

namespace BuildM

theorem formula_keeps (node : Handle) (args : List Handle) (f : Formula) :
    Keeps Grows (f.build node args) := by
  induction f with
  | self => exact .pure node
  | operand index =>
      rw [Formula.build]
      split
      · exact .pure _
      · exact fun g => refl g
  | literal v => exact literal_keeps v
  | unary op a iha => exact .bind iha fun a => operation_keeps op [a]
  | binary op a b iha ihb =>
      exact .bind iha fun a => .bind ihb fun b => operation_keeps op [a, b]
  | select c a b ihc iha ihb =>
      exact .bind ihc fun c => .bind iha fun a => .bind ihb fun b =>
        operation_keeps .ifElse [c, a, b]
  | after first second ihfirst ihsecond => exact .bind ihfirst fun _ => ihsecond

end BuildM

namespace DiffM

open Workspace

variable {α : Type}

theorem onGraph_of_ok {work : BuildM α} {graph graph' : Graph} {memo : Memo} {a : α}
    (hwork : work graph = .ok a graph') : onGraph work ⟨graph, memo⟩ = .ok a ⟨graph', memo⟩ := by
  simp only [onGraph, hwork]

theorem onGraph_of_error {work : BuildM α} {graph graph' : Graph} {memo : Memo} {e : Failure}
    (hwork : work graph = .error e graph') :
    onGraph work ⟨graph, memo⟩ = .error e ⟨graph', memo⟩ := by
  simp only [onGraph, hwork]

/-- Work on the graph leaves the memo alone, wherever it ends. -/
theorem endState_onGraph (work : BuildM α) (w : Workspace) :
    endState (onGraph work) w = ⟨endState work w.graph, w.memo⟩ := by
  cases hrun : work w.graph with
  | ok a graph' => rw [endState_of_ok (onGraph_of_ok hrun), endState_of_ok hrun]
  | error e graph' => rw [endState_of_error (onGraph_of_error hrun), endState_of_error hrun]

/-- Reading changes nothing. -/
theorem consult_keeps {R : Workspace → Workspace → Prop} [IsPreorder Workspace R]
    (f : Workspace → Except Failure α) : Keeps R (consult f) := by
  intro w
  unfold endState consult
  cases f w <;> exact refl w

end DiffM

/-- A relation of workspaces that the steps of sweeps keep: work on the graph that lets it grow,
looking whether the memo belongs to the graph, and keeping a local partial. -/
structure Workspace.KeptBySteps (R : Workspace → Workspace → Prop) : Prop where
  onGraph {α : Type} {work : BuildM α} : Keeps Graph.Grows work → Keeps R (DiffM.onGraph work)
  sync : Keeps R DiffM.sync
  recordPartial (node : Handle) (index : Nat) (p : Handle) : Keeps R (DiffM.record fun memo =>
    { memo with partials := memo.partials.insert (node, index) p })

namespace Workspace.KeptBySteps

open DiffM

variable {R : Workspace → Workspace → Prop} (hR : KeptBySteps R)

include hR

theorem inspect {α : Type} (f : Graph → Except GraphError α) : Keeps R (DiffM.inspect f) :=
  hR.onGraph (BuildM.inspect_keeps f)

theorem literal (v : Float) : Keeps R (DiffM.literal v) :=
  hR.onGraph (BuildM.literal_keeps v)

theorem operation (op : Op) (args : List Handle) : Keeps R (DiffM.operation op args) :=
  hR.onGraph (BuildM.operation_keeps op args)

theorem declareMany (stem : String) (count : Nat) :
    Keeps R (DiffM.onGraph (BuildM.extend fun g => g.declareMany stem count)) :=
  hR.onGraph (BuildM.extend_keeps fun g => declareFrom_grows g stem 1 count)

variable [IsPreorder Workspace R]

theorem partialOf (node : Handle) (app : Application) (index : Nat) :
    Keeps R (DiffM.partialOf node app index) := by
  refine .bind (consult_keeps _) fun known => ?_
  cases known with
  | some p => exact .pure p
  | none =>
      exact .bind (hR.onGraph (BuildM.formula_keeps node app.args _)) fun p =>
        .bind (hR.recordPartial node index p) fun _ => .pure p

theorem chainFrom (node : Handle) (app : Application) (index : Nat) (tangents : List Handle)
    (total : Option Handle) : Keeps R (DiffM.chainFrom node app index tangents total) := by
  induction tangents generalizing index total with
  | nil =>
      cases total with
      | none => exact hR.literal 0.0
      | some total => exact .pure total
  | cons tangent rest ih =>
      rw [DiffM.chainFrom]
      refine .bind (consult_keeps _) fun zeroTangent => ?_
      split
      · exact ih (index + 1) total
      · apply Keeps.bind (hR.partialOf node app index)
        intro p
        refine .bind (consult_keeps _) fun zeroPartial => ?_
        split
        · exact ih (index + 1) total
        · apply Keeps.bind (hR.operation .mul [p, tangent])
          intro term
          cases total with
          | none => exact .bind (.pure term) fun total => ih (index + 1) (some total)
          | some before =>
              exact .bind (hR.operation .add [before, term]) fun total =>
                ih (index + 1) (some total)

omit hR in
theorem tangentOf (tangents : Tangents) (node : Handle) :
    Keeps R (DiffM.tangentOf tangents node) := by
  unfold DiffM.tangentOf
  split
  · exact .pure _
  · exact fun w => refl w

theorem sweepForward (seeds : Tangents) (zero : Handle) (tangents : Tangents) (node : Handle) :
    Keeps R (DiffM.sweepForward seeds zero tangents node) := by
  apply Keeps.bind (hR.inspect _)
  intro n
  cases n with
  | var id name => exact .pure _
  | lit v => exact .pure _
  | app app =>
      exact .bind (.mapM (tangentOf tangents) app.args) fun operandTangents =>
        .bind (hR.chainFrom node app 0 operandTangents none) fun _ => .pure _

theorem forward (roots : List Handle) (seeds : Tangents) : Keeps R (DiffM.forward roots seeds) :=
  .bind hR.sync fun _ => .bind (consult_keeps _) fun order =>
    .bind (hR.literal 0.0) fun zero =>
      .bind (.foldlM (hR.sweepForward seeds zero) order {}) fun tangents =>
        .mapM (tangentOf tangents) roots

theorem seedTangents (pairs : List (Handle × Handle)) (tangents : Tangents) :
    Keeps R (DiffM.seedTangents pairs tangents) := by
  induction pairs generalizing tangents with
  | nil => exact .pure tangents
  | cons pair rest ih =>
      obtain ⟨var, seed⟩ := pair
      rw [DiffM.seedTangents]
      cases tangents[var]? with
      | none => exact .bind (.pure seed) fun t => ih _
      | some before => exact .bind (hR.operation .add [before, seed]) fun t => ih _

theorem checkArguments (outputs vars : List Handle) :
    Keeps R (DiffM.checkArguments outputs vars) :=
  .bind (hR.inspect _) fun _ => hR.inspect _

theorem jacobianTimes (outputs vars : List Handle) :
    Keeps R (DiffM.jacobianTimes outputs vars) :=
  .bind (hR.checkArguments outputs vars) fun _ => .bind (hR.declareMany "v" _) fun seeds =>
    .bind (hR.seedTangents (vars.zip seeds) {}) fun tangents =>
      .bind (hR.forward outputs tangents) fun _ => .pure _

theorem distribute (active : Std.HashSet Handle) (node : Handle) (app : Application)
    (adjoint : Handle) (index : Nat) (args : List Handle) (adj : Adjoints) :
    Keeps R (DiffM.distribute active node app adjoint index args adj) := by
  induction args generalizing index adj with
  | nil => exact .pure adj
  | cons arg rest ih =>
      rw [DiffM.distribute]
      split
      · apply Keeps.bind (hR.partialOf node app index)
        intro p
        refine .bind (consult_keeps _) fun zeroPartial => ?_
        split
        · exact ih (index + 1) adj
        · exact .bind (hR.operation .mul [p, adjoint]) fun term => ih (index + 1) _
      · exact ih (index + 1) adj

theorem sweepReverse (active : Std.HashSet Handle) (adj : Adjoints) (node : Handle) :
    Keeps R (DiffM.sweepReverse active adj node) := by
  unfold DiffM.sweepReverse
  split
  · exact .pure adj
  · refine .bind (hR.onGraph (BuildM.sum_keeps _)) fun adjoint =>
      .bind (hR.inspect _) fun n => ?_
    cases n with
    | var id name => exact .pure _
    | lit v => exact .pure _
    | app app => exact hR.distribute active node app adjoint 0 app.args _

theorem reverse (roots seeds vars : List Handle) : Keeps R (DiffM.reverse roots seeds vars) :=
  .bind hR.sync fun _ => .bind (consult_keeps _) fun order =>
    .bind (hR.inspect _) fun active => .bind (consult_keeps _) fun seeded =>
      .bind (.foldlM (hR.sweepReverse active) order.reverse seeded) fun _ =>
        .bind (hR.literal 0.0) fun _ => .pure _

theorem transposeTimes (outputs vars : List Handle) :
    Keeps R (DiffM.transposeTimes outputs vars) :=
  .bind (hR.checkArguments outputs vars) fun _ => .bind (hR.declareMany "w" _) fun seeds =>
    .bind (hR.reverse outputs seeds vars) fun _ => .pure _

end Workspace.KeptBySteps

/-- Naming the result of work on the graph is work on the graph. -/
theorem DiffM.onGraph_map {α β : Type} (work : BuildM α) (f : α → β) :
    (DiffM.onGraph work >>= fun a => pure (f a)) =
      DiffM.onGraph (work >>= fun a => pure (f a)) := by
  funext ⟨graph, memo⟩
  cases hrun : work graph with
  | ok a graph' =>
      have hmap : (work >>= fun a => pure (f a)) graph = .ok (f a) graph' := bind_of_ok hrun
      rw [bind_of_ok (onGraph_of_ok hrun), onGraph_of_ok hmap]
      rfl
  | error e graph' =>
      rw [bind_of_error (onGraph_of_error hrun), onGraph_of_error (bind_of_error hrun)]

/-- Whether a call works on the graph alone. -/
def Call.builds : Call → Bool
  | declare _ | declareMany _ _ | literal _ | operation _ _ | powLiteral _ _ | square _
  | scale _ _ | sum _ | product _ | dot _ _ => true
  | _ => false

theorem Call.exists_work_of_builds {call : Call} (hbuilds : call.builds = true) :
    ∃ work : BuildM Answer, Keeps Graph.Grows work ∧ call.run = DiffM.onGraph work := by
  have hnamed : ∀ {α : Type} {work : BuildM α} (f : α → Answer), Keeps Graph.Grows work →
      ∃ work' : BuildM Answer, Keeps Graph.Grows work' ∧
        (DiffM.onGraph work >>= fun a => pure (f a)) = DiffM.onGraph work' :=
    fun f hwork => ⟨_, .bind hwork fun _ => .pure _, DiffM.onGraph_map _ f⟩
  cases call with
  | declare name =>
      exact ⟨_, .bind (BuildM.extend_keeps fun g => (Step.declare name).grows) fun _ => .pure _,
        rfl⟩
  | declareMany stem count =>
      exact ⟨_, .bind (BuildM.extend_keeps fun g => declareFrom_grows g stem 1 count)
        fun _ => .pure _, rfl⟩
  | literal v => exact hnamed .handle (BuildM.literal_keeps v)
  | operation op args => exact hnamed .handle (BuildM.operation_keeps op args)
  | powLiteral a exponent => exact hnamed .handle (BuildM.powLiteral_keeps a exponent)
  | square a => exact hnamed .handle (BuildM.operation_keeps .mul [a, a])
  | scale factor a => exact hnamed .handle (BuildM.scale_keeps factor a)
  | sum terms => exact hnamed .handle (BuildM.sum_keeps terms)
  | product factors => exact hnamed .handle (BuildM.product_keeps factors)
  | dot left right => exact hnamed .handle (BuildM.dot_keeps left right)
  | _ => cases hbuilds

theorem Workspace.KeptBySteps.builds {R : Workspace → Workspace → Prop} (hR : KeptBySteps R)
    {call : Call} (hbuilds : call.builds = true) : Keeps R call.run := by
  obtain ⟨work, hwork, hrun⟩ := Call.exists_work_of_builds hbuilds
  rw [hrun]
  exact hR.onGraph hwork

namespace DiffM

theorem record_keeps (f : Memo → Memo) : Keeps Workspace.Grows (record f) :=
  fun w => refl w.graph

theorem steps_keep : Workspace.KeptBySteps Workspace.Grows where
  onGraph {_ work} hwork w := by
    rw [endState_onGraph]
    exact hwork w.graph
  sync w := refl w.graph
  recordPartial _ _ _ := record_keeps _

theorem differentiate_keeps (var node : Handle) :
    Keeps Workspace.Grows (differentiate var node) := by
  apply Keeps.bind (steps_keep.inspect _)
  intro n
  cases n with
  | var id name => exact .bind (steps_keep.literal _) fun d => record_keeps _
  | lit v => exact .bind (steps_keep.literal _) fun d => record_keeps _
  | app app =>
      exact .bind (.mapM (fun a => consult_keeps _) app.args) fun tangents =>
        .bind (steps_keep.chainFrom node app 0 tangents none) fun d => record_keeps _

theorem derivative_keeps (node var : Handle) : Keeps Workspace.Grows (derivative node var) := by
  refine .bind (steps_keep.inspect _) fun _ => .bind (steps_keep.inspect _) fun _ =>
    .bind steps_keep.sync fun _ => .bind (consult_keeps _) fun known => ?_
  cases known with
  | some d => exact .pure d
  | none =>
      exact .bind (consult_keeps _) fun pending =>
        .bind (.forM (differentiate_keeps var) pending) fun _ => consult_keeps _

/-- A property of work that work without effect has, and every sequence of work that has it. -/
structure Sequences (P : (α : Type) → DiffM α → Prop) : Prop where
  pure {α : Type} (a : α) : P α (Pure.pure a)
  bind {α β : Type} {x : DiffM α} {f : α → DiffM β} :
    P α x → (∀ a, P β (f a)) → P β (x >>= f)

namespace Sequences

variable {P : (α : Type) → DiffM α → Prop} {β γ : Type}

theorem mapM (hP : Sequences P) {f : γ → DiffM β} (hf : ∀ c, P β (f c)) (cs : List γ) :
    P (List β) (cs.mapM f) := by
  induction cs with
  | nil =>
      rw [List.mapM_nil]
      exact hP.pure []
  | cons c rest ih =>
      rw [List.mapM_cons]
      exact hP.bind (hf c) fun b => hP.bind ih fun bs => hP.pure (b :: bs)

theorem foldlM (hP : Sequences P) {f : β → γ → DiffM β} (hf : ∀ b c, P β (f b c)) (cs : List γ)
    (b : β) : P β (cs.foldlM f b) := by
  induction cs generalizing b with
  | nil =>
      rw [List.foldlM_nil]
      exact hP.pure b
  | cons c rest ih =>
      rw [List.foldlM_cons]
      exact hP.bind (hf b c) fun b' => ih b'

end Sequences

/-- A property of work that the parts of calls have, and sequences of work that has it. -/
structure HasParts (P : (α : Type) → DiffM α → Prop) : Prop extends Sequences P where
  onGraph {α : Type} {work : BuildM α} : Keeps Graph.Grows work → P α (DiffM.onGraph work)
  isZero (h : Handle) : P Bool (DiffM.isZero h)
  derivative (node var : Handle) : P Handle (DiffM.derivative node var)
  jacobianTimes (outputs vars : List Handle) : P VectorProduct (DiffM.jacobianTimes outputs vars)
  transposeTimes (outputs vars : List Handle) : P VectorProduct (DiffM.transposeTimes outputs vars)

namespace HasParts

variable {P : (α : Type) → DiffM α → Prop} (hP : HasParts P)

include hP

theorem inspect {α : Type} (f : Graph → Except GraphError α) : P α (DiffM.inspect f) :=
  hP.onGraph (BuildM.inspect_keeps f)

theorem derivativeWrt (node : Handle) (vars : List Handle) :
    P Handle (DiffM.derivativeWrt node vars) :=
  hP.bind (hP.inspect _) fun _ => hP.foldlM (fun d var => hP.derivative d var) vars node

theorem resolveColumns (outputs vars : List Handle) (columns : Option (List Handle)) :
    P (List Handle) (DiffM.resolveColumns outputs vars columns) := by
  refine hP.bind (hP.inspect _) fun _ => hP.bind (hP.inspect _) fun _ => ?_
  cases columns with
  | none => exact hP.pure vars
  | some columns => exact hP.bind (hP.inspect _) fun _ => hP.pure columns

theorem jacobian (outputs vars : List Handle) (columns : Option (List Handle)) :
    P (Matrix Handle) (DiffM.jacobian outputs vars columns) :=
  hP.bind (hP.resolveColumns outputs vars columns) fun columns =>
    hP.bind (hP.mapM (fun out => hP.mapM (fun col => hP.derivative out col) columns) outputs)
      fun _ => hP.pure _

theorem gradient (node : Handle) (vars : List Handle) :
    P (List Handle) (DiffM.gradient node vars) :=
  hP.bind (hP.jacobian [node] vars none) fun _ => hP.pure _

theorem hessian (node : Handle) (vars : List Handle) :
    P (Matrix Handle) (DiffM.hessian node vars) :=
  hP.bind (hP.gradient node vars) fun slopes => hP.jacobian slopes vars none

theorem sparseRow (row : Nat) (out : Handle) (col : Nat) (vars : List Handle) :
    P (List (Nat × Nat × Handle)) (DiffM.sparseRow row out col vars) := by
  induction vars generalizing col with
  | nil => exact hP.pure []
  | cons var rest ih =>
      exact hP.bind (hP.derivative out var) fun d => hP.bind (hP.isZero d) fun _ =>
        hP.bind (ih (col + 1)) fun _ => hP.pure _

theorem sparseRows (columns : List Handle) (row : Nat) (outputs : List Handle) :
    P (List (Nat × Nat × Handle)) (DiffM.sparseRows columns row outputs) := by
  induction outputs generalizing row with
  | nil => exact hP.pure []
  | cons out rest ih =>
      exact hP.bind (hP.sparseRow row out 0 columns) fun _ =>
        hP.bind (ih (row + 1)) fun _ => hP.pure _

theorem sparseJacobian (outputs vars : List Handle) :
    P SparseMatrix (DiffM.sparseJacobian outputs vars) :=
  hP.bind (hP.resolveColumns outputs vars none) fun columns =>
    hP.bind (hP.sparseRows columns 0 outputs) fun _ => hP.pure _

theorem hessianTimes (node : Handle) (vars : List Handle) :
    P VectorProduct (DiffM.hessianTimes node vars) :=
  hP.bind (hP.gradient node vars) fun slopes => hP.jacobianTimes slopes vars

theorem builds {call : Call} (hbuilds : call.builds = true) : P Answer call.run := by
  obtain ⟨work, hwork, hrun⟩ := Call.exists_work_of_builds hbuilds
  rw [hrun]
  exact hP.onGraph hwork

/-- What the parts of calls have, every call has. -/
theorem run (call : Call) : P Answer call.run := by
  cases call with
  | derivative node var => exact hP.bind (hP.derivative node var) fun _ => hP.pure _
  | derivativeWrt node vars => exact hP.bind (hP.derivativeWrt node vars) fun _ => hP.pure _
  | gradient node vars => exact hP.bind (hP.gradient node vars) fun _ => hP.pure _
  | jacobian outputs vars columns =>
      exact hP.bind (hP.jacobian outputs vars columns) fun _ => hP.pure _
  | hessian node vars => exact hP.bind (hP.hessian node vars) fun _ => hP.pure _
  | sparseJacobian outputs vars =>
      exact hP.bind (hP.sparseJacobian outputs vars) fun _ => hP.pure _
  | jacobianTimes outputs vars =>
      exact hP.bind (hP.jacobianTimes outputs vars) fun _ => hP.pure _
  | transposeTimes outputs vars =>
      exact hP.bind (hP.transposeTimes outputs vars) fun _ => hP.pure _
  | hessianTimes node vars => exact hP.bind (hP.hessianTimes node vars) fun _ => hP.pure _
  | _ => exact hP.builds rfl

end HasParts

end DiffM

/-- A relation of workspaces that the parts of calls keep: work on the graph that lets it grow, a
derivative, and the two products. -/
structure Workspace.KeptByParts (R : Workspace → Workspace → Prop) : Prop where
  onGraph {α : Type} {work : BuildM α} : Keeps Graph.Grows work → Keeps R (DiffM.onGraph work)
  derivative (node var : Handle) : Keeps R (DiffM.derivative node var)
  jacobianTimes (outputs vars : List Handle) : Keeps R (DiffM.jacobianTimes outputs vars)
  transposeTimes (outputs vars : List Handle) : Keeps R (DiffM.transposeTimes outputs vars)

/-- What the parts of calls keep is kept by every call, wherever it ends. -/
theorem Workspace.KeptByParts.run {R : Workspace → Workspace → Prop} [IsPreorder Workspace R]
    (hR : KeptByParts R) (call : Call) : Keeps R call.run := by
  have hparts : DiffM.HasParts fun _ x => Keeps R x := {
    pure := Keeps.pure
    bind := Keeps.bind
    onGraph := hR.onGraph
    isZero := fun _ => DiffM.consult_keeps _
    derivative := hR.derivative
    jacobianTimes := hR.jacobianTimes
    transposeTimes := hR.transposeTimes }
  exact hparts.run call

/-- A call lets its graph grow, wherever it ends. -/
theorem Call.run_keeps (call : Call) : Keeps Workspace.Grows call.run := by
  have hparts : Workspace.KeptByParts Workspace.Grows :=
    ⟨DiffM.steps_keep.onGraph, DiffM.derivative_keeps, DiffM.steps_keep.jacobianTimes,
      DiffM.steps_keep.transposeTimes⟩
  exact hparts.run call

end ExprGraph
