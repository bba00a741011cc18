import Mathlib
import ExprGraph.Proofs.Derivative.Pruning

/-!
# What calls build

Every call is made of derivatives and of the two products, and each of these builds local partials
only where a variable it is asked about lies below.  A call that differentiates once does so below
its outputs.  If none of its variables lies below the exponent of a power there, it makes no
logarithm.
-/

namespace ExprGraph

open Workspace

open ExprGraph.Graph

/-- From a trusted workspace, local partials are built only for what leads from the roots to the
variables. -/
def Workspace.ConfinedTo (roots : Set Handle) (vars : List Handle) (w w' : Workspace) : Prop :=
  w.Trusted → w'.Trusted ∧ Confines (w'.graph.Feeds roots vars) w w'

namespace Workspace

variable {roots roots' : Set Handle} {vars vars' : List Handle} {w w' : Workspace}

instance : IsPreorder Workspace (ConfinedTo roots vars) where
  refl w hw := ⟨hw, refl w⟩
  trans _ _ _ hfirst hrest hw := by
    obtain ⟨hw', hconfines⟩ := hfirst hw
    obtain ⟨hw'', hconfines'⟩ := hrest hw'
    have hext := hconfines'.grows.extends
    have hfirst' : Confines (_) _ _ := hconfines.mono fun node index hfeeds =>
      hfeeds.mono hext subset_rfl (List.Subset.refl _)
    exact ⟨hw'', Trans.trans hfirst' hconfines'⟩

end Workspace

namespace DiffM

variable {α : Type} {roots : Set Handle} {vars : List Handle} {w : Workspace}

theorem inspect_keeps {R : Workspace → Workspace → Prop} [IsPreorder Workspace R]
    (f : Graph → Except GraphError α) : Keeps R (inspect f) := by
  intro w
  cases hf : f w.graph with
  | ok a =>
      rw [endState_of_ok (inspect_eq hf)]
      exact refl w
  | error e =>
      rw [endState_of_error (inspect_eq_error hf)]
      exact refl w

/-- Work that is refused, or succeeds and is confined, is confined. -/
theorem confinedTo_of_gives {x : DiffM α} {Q : α → Workspace → Prop} {nodes : Set Handle}
    {wanted : List Handle} (hblind : Blind Trusted x)
    (hx : w.Trusted → (∃ e, x w = .error e w) ∨ ∃ a w', x w = .ok a w')
    (hgives : w.Trusted → Gives (Confines (w.graph.Feeds nodes wanted)) x w Q)
    (hroots : nodes ⊆ roots) (hvars : wanted ⊆ vars) : ConfinedTo roots vars w (endState x w) := by
  refine fun hw => ⟨hblind.holds hw, ?_⟩
  rcases hx hw with ⟨e, hrefused⟩ | ⟨a, w', hrun⟩
  · rw [endState_of_error hrefused]
    exact refl w
  · rw [endState_of_ok hrun]
    obtain ⟨hconfines, -⟩ := hgives hw a w' hrun
    exact hconfines.mono fun node index hfeeds =>
      hfeeds.mono hconfines.grows.extends hroots hvars

theorem derivative_confined {node var : Handle} (hnode : node ∈ roots) (hvar : var ∈ vars) :
    Keeps (ConfinedTo roots vars) (derivative node var) := by
  intro w
  refine confinedTo_of_gives (derivative_blind node var) (fun hw => ?_)
    (fun hw => derivative_prunes hw node var) (by simpa using hnode) (by simpa using hvar)
  exact (derivative_cases hw node var).imp_right fun ⟨d, w', hrun, _⟩ => ⟨d, w', hrun⟩

/-- Work behind a check of its arguments is refused, or the arguments are usable. -/
theorem checked_cases {β : Type} {outputs vars : List Handle} {rest : Unit → DiffM β}
    (hrest : (∀ out ∈ outputs, w.graph.Live out) → (∀ var ∈ vars, w.graph.IsVariable var) →
      ∃ a w', (checkArguments outputs vars >>= rest) w = .ok a w') :
    (∃ e, (checkArguments outputs vars >>= rest) w = .error e w) ∨
      ∃ a w', (checkArguments outputs vars >>= rest) w = .ok a w' := by
  by_cases hargs : (∀ out ∈ outputs, w.graph.Live out) ∧ ∀ var ∈ vars, w.graph.IsVariable var
  · exact .inr (hrest hargs.1 hargs.2)
  · obtain ⟨e, hrefused⟩ := checkArguments_refused hargs
    exact .inl ⟨_, bind_of_error hrefused⟩

theorem jacobianTimes_confined {outputs : List Handle} (houtputs : ∀ out ∈ outputs, out ∈ roots) :
    Keeps (ConfinedTo roots vars) (jacobianTimes outputs vars) := by
  intro w
  refine confinedTo_of_gives
    ((jacobianTimes_blind outputs vars).trusted (jacobianTimes_advances outputs vars))
    (fun hw => checked_cases fun houtputs hvars => ?_)
    (fun hw => jacobianTimes_prunes hw.ready.graph) houtputs (List.Subset.refl vars)
  obtain ⟨p, w', hrun, -⟩ := jacobianTimes_succeeds hw.ready houtputs hvars
  exact ⟨p, w', hrun⟩

theorem transposeTimes_confined {outputs : List Handle} (houtputs : ∀ out ∈ outputs, out ∈ roots) :
    Keeps (ConfinedTo roots vars) (transposeTimes outputs vars) := by
  intro w
  refine confinedTo_of_gives
    ((transposeTimes_blind outputs vars).trusted (transposeTimes_advances outputs vars))
    (fun hw => checked_cases fun houtputs hvars => ?_)
    (fun hw => transposeTimes_prunes hw.ready.graph) houtputs (List.Subset.refl vars)
  obtain ⟨p, w', hrun, -⟩ := transposeTimes_succeeds hw.ready houtputs hvars
  exact ⟨p, w', hrun⟩

variable {outputs columns : List Handle}

theorem derivativeRows_confined (houtputs : ∀ out ∈ outputs, out ∈ roots)
    (hcolumns : ∀ col ∈ columns, col ∈ vars) :
    Keeps (ConfinedTo roots vars) (derivativeRows outputs columns) :=
  .mapM_of_mem fun out hout => .mapM_of_mem fun col hcol =>
    derivative_confined (houtputs out hout) (hcolumns col hcol)

/-- Work on the columns of a Jacobian, which are checked first. -/
theorem resolved_confined {β : Type} (requested : Option (List Handle))
    {rest : List Handle → DiffM β}
    (hrest : Keeps (ConfinedTo roots (requested.getD vars)) (rest (requested.getD vars))) :
    Keeps (ConfinedTo roots (requested.getD vars))
      (resolveColumns outputs vars requested >>= rest) := by
  intro w
  rcases resolveColumns_cases outputs vars requested w with ⟨e, hrefused⟩ | ⟨hresolved, -, -⟩
  · rw [endState_of_error (bind_of_error hrefused)]
    exact refl w
  · have hend : endState (resolveColumns outputs vars requested >>= rest) w =
        endState (rest (requested.getD vars)) w := by
      rw [endState, bind_of_ok hresolved, endState]
    rw [hend]
    exact hrest w

theorem jacobian_confined (requested : Option (List Handle))
    (houtputs : ∀ out ∈ outputs, out ∈ roots) :
    Keeps (ConfinedTo roots (requested.getD vars)) (jacobian outputs vars requested) :=
  resolved_confined requested (.bind (derivativeRows_confined houtputs fun _ hcol => hcol)
    fun _ => .pure _)

theorem gradient_confined {node : Handle} (hnode : node ∈ roots) :
    Keeps (ConfinedTo roots vars) (gradient node vars) :=
  .bind (jacobian_confined none (by simpa using hnode)) fun _ => .pure _

theorem sparseRow_confined {out : Handle} (hout : out ∈ roots) (row col : Nat)
    (hcolumns : ∀ var ∈ columns, var ∈ vars) :
    Keeps (ConfinedTo roots vars) (sparseRow row out col columns) := by
  induction columns generalizing col with
  | nil => exact .pure []
  | cons var rest ih =>
      obtain ⟨hhead, hrest⟩ := List.forall_mem_cons.mp hcolumns
      exact .bind (derivative_confined hout hhead) fun d => .bind (consult_keeps _) fun _ =>
        .bind (ih (col + 1) hrest) fun _ => .pure _

theorem sparseRows_confined (houtputs : ∀ out ∈ outputs, out ∈ roots)
    (hcolumns : ∀ var ∈ columns, var ∈ vars) (row : Nat) :
    Keeps (ConfinedTo roots vars) (sparseRows columns row outputs) := by
  induction outputs generalizing row with
  | nil => exact .pure []
  | cons out rest ih =>
      obtain ⟨hhead, hrest⟩ := List.forall_mem_cons.mp houtputs
      exact .bind (sparseRow_confined hhead row 0 hcolumns) fun _ =>
        .bind (ih hrest (row + 1)) fun _ => .pure _

theorem sparseJacobian_confined (houtputs : ∀ out ∈ outputs, out ∈ roots) :
    Keeps (ConfinedTo roots vars) (sparseJacobian outputs vars) :=
  resolved_confined none
    (.bind (sparseRows_confined houtputs (fun _ hcol => hcol) 0) fun _ => .pure _)

end DiffM

open DiffM

namespace Call

/-- The variables by which a call differentiates. -/
def wanted : Call → List Handle
  | derivative _ var => [var]
  | derivativeWrt _ vars | gradient _ vars | hessian _ vars | hessianTimes _ vars => vars
  | jacobian _ vars columns => columns.getD vars
  | sparseJacobian _ vars | jacobianTimes _ vars | transposeTimes _ vars => vars
  | _ => []

/-- What a call differentiates that does so once only, and by what. -/
inductive DifferentiatesOnce : Call → List Handle → Prop
  | derivative (node var : Handle) : DifferentiatesOnce (.derivative node var) [node]
  | gradient (node : Handle) (vars : List Handle) :
      DifferentiatesOnce (.gradient node vars) [node]
  | jacobian (outputs vars : List Handle) (columns : Option (List Handle)) :
      DifferentiatesOnce (.jacobian outputs vars columns) outputs
  | sparseJacobian (outputs vars : List Handle) :
      DifferentiatesOnce (.sparseJacobian outputs vars) outputs
  | jacobianTimes (outputs vars : List Handle) :
      DifferentiatesOnce (.jacobianTimes outputs vars) outputs
  | transposeTimes (outputs vars : List Handle) :
      DifferentiatesOnce (.transposeTimes outputs vars) outputs

/-- A call that differentiates once builds below its outputs. -/
theorem DifferentiatesOnce.run_confined {call : Call} {outputs : List Handle}
    (hcall : call.DifferentiatesOnce outputs) :
    Keeps (ConfinedTo {out | out ∈ outputs} call.wanted) call.run := by
  have houtputs : ∀ out ∈ outputs, out ∈ {out | out ∈ outputs} := fun _ hout => hout
  cases hcall with
  | derivative node var =>
      exact .bind (derivative_confined (by simp) (List.mem_singleton_self var)) fun _ => .pure _
  | gradient node vars => exact .bind (gradient_confined (by simp)) fun _ => .pure _
  | jacobian outputs vars columns =>
      exact .bind (jacobian_confined columns houtputs) fun _ => .pure _
  | sparseJacobian outputs vars => exact .bind (sparseJacobian_confined houtputs) fun _ => .pure _
  | jacobianTimes outputs vars => exact .bind (jacobianTimes_confined houtputs) fun _ => .pure _
  | transposeTimes outputs vars => exact .bind (transposeTimes_confined houtputs) fun _ => .pure _

/-- Any call that differentiates builds where its variables lie below, though perhaps above nodes
that it has made itself. -/
theorem run_confined {call : Call} (hbuilds : call.builds = false) :
    Keeps (ConfinedTo Set.univ call.wanted) call.run := by
  have hall : ∀ {nodes : List Handle}, ∀ node ∈ nodes, node ∈ (Set.univ : Set Handle) :=
    fun _ _ => Set.mem_univ _
  cases call with
  | derivative node var =>
      exact .bind (derivative_confined (Set.mem_univ _) (List.mem_singleton_self var))
        fun _ => .pure _
  | derivativeWrt node vars =>
      have hloop : Keeps (ConfinedTo Set.univ vars) (DiffM.derivativeWrt node vars) :=
        .bind (inspect_keeps _) fun _ =>
          .foldlM_of_mem (fun var hvar d => derivative_confined (Set.mem_univ d) hvar) node
      exact .bind hloop fun _ => .pure _
  | gradient node vars => exact .bind (gradient_confined (Set.mem_univ _)) fun _ => .pure _
  | jacobian outputs vars columns => exact .bind (jacobian_confined columns hall) fun _ => .pure _
  | hessian node vars =>
      have hboth : Keeps (ConfinedTo Set.univ vars) (DiffM.hessian node vars) :=
        .bind (gradient_confined (Set.mem_univ _)) fun slopes => jacobian_confined none hall
      exact .bind hboth fun _ => .pure _
  | sparseJacobian outputs vars => exact .bind (sparseJacobian_confined hall) fun _ => .pure _
  | jacobianTimes outputs vars => exact .bind (jacobianTimes_confined hall) fun _ => .pure _
  | transposeTimes outputs vars => exact .bind (transposeTimes_confined hall) fun _ => .pure _
  | hessianTimes node vars =>
      have hboth : Keeps (ConfinedTo Set.univ vars) (DiffM.hessianTimes node vars) :=
        .bind (gradient_confined (Set.mem_univ _)) fun slopes => jacobianTimes_confined hall
      exact .bind hboth fun _ => .pure _
  | _ => cases hbuilds

/-- No call builds a local partial for an operand that none of its variables lies below. -/
theorem passes_of_mem_partials (call : Call) {w : Workspace} (hw : w.Trusted) {node : Handle}
    {index : Nat} (hkey : (node, index) ∈ (endState call.run w).memo.partials) :
    ((endState call.run w).memo.generation = w.memo.generation ∧
      (node, index) ∈ w.memo.partials) ∨
      (endState call.run w).graph.Passes call.wanted node index := by
  cases hbuilds : call.builds with
  | false =>
      obtain ⟨-, hconfines⟩ := run_confined hbuilds w hw
      exact (hconfines.partials hkey).imp_right fun hfeeds => hfeeds.2
  | true =>
      obtain ⟨work, -, hrun⟩ := exists_work_of_builds hbuilds
      rw [hrun, endState_onGraph] at hkey ⊢
      exact .inl ⟨rfl, hkey⟩

/-- A call that differentiates once makes no logarithm unless one of its variables lies below the
exponent of a power below its outputs. -/
theorem DifferentiatesOnce.ln_of_independent {call : Call} {outputs : List Handle}
    (hcall : call.DifferentiatesOnce outputs) {w : Workspace} (hw : w.Trusted)
    (hlive : ∀ out ∈ outputs, w.graph.Live out)
    (hexponents : ∀ {out node base exponent : Handle}, out ∈ outputs → w.graph.Reaches out node →
      w.graph.node node = .ok (.app ⟨.pow, [base, exponent]⟩) →
      ¬ w.graph.DependsOn call.wanted exponent)
    {h : Handle} {args : List Handle}
    (hn : (endState call.run w).graph.node h = .ok (.app ⟨.ln, args⟩)) :
    w.graph.node h = .ok (.app ⟨.ln, args⟩) := by
  obtain ⟨-, hconfines⟩ := hcall.run_confined w hw
  refine (hconfines.logarithms hn).resolve_right ?_
  rintro ⟨node, index, operands, hfeeds, hindex, hpow⟩
  have hext := hconfines.grows.extends
  obtain ⟨⟨out, hout, hreach⟩, app, a, hn, ha, hdepends⟩ :=
    (hw.ready.graph.feeds_iff hext hlive).mp hfeeds
  cases (hext.node_eq hn).symm.trans hpow
  have harity := hw.ready.graph.arity hn
  obtain ⟨base, exponent, rfl⟩ := List.length_eq_two.mp harity
  obtain rfl : index = 1 := by
    have hlt := (List.getElem?_eq_some_iff.mp ha).1
    simp only [List.length_cons, List.length_nil] at hlt
    omega
  obtain rfl : exponent = a := Option.some.inj ha
  exact hexponents hout hreach hn hdepends

end Call

end ExprGraph
