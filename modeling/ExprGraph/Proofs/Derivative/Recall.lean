import Mathlib
import ExprGraph.Proofs.Derivative.Arguments
import ExprGraph.Proofs.Derivative.Coverage

/-!
# What a memo knows

A derivative that a memo of the graph has is given out again as it is, and nothing changes.  What is
known stays known while the graph grows and while the memo is used with it.
-/

namespace ExprGraph

open Workspace

open ExprGraph.Graph

namespace Workspace

/-- The memo is one of the graph as it is, and has the derivative of a node by a variable. -/
def Knows (w : Workspace) (node var d : Handle) : Prop :=
  w.Current ∧ w.memo.derivatives[(node, var)]? = some d

/-- The graph has grown, the memo does not show, and what was known is known. -/
structure Retains (w w' : Workspace) : Prop where
  trusted : w'.Trusted
  grown : w.graph.Extends w'.graph
  knows {node var d : Handle} : w.Knows node var d → w'.Knows node var d

/-- The workspace retains what it knows, if it is trusted. -/
def Remembers (w w' : Workspace) : Prop := w.Trusted → w.Retains w'

variable {w w' w'' : Workspace} {node var d d' : Handle}

theorem Trusted.retains_refl (hw : w.Trusted) : w.Retains w := ⟨hw, .refl w.graph, id⟩

theorem Retains.trans (hfirst : w.Retains w') (hrest : w'.Retains w'') : w.Retains w'' :=
  ⟨hrest.trusted, hfirst.grown.trans hrest.grown, fun hknown => hrest.knows (hfirst.knows hknown)⟩

instance : IsPreorder Workspace Remembers where
  refl _ := Trusted.retains_refl
  trans _ _ _ hfirst hrest := fun hw => (hfirst hw).trans (hrest (hfirst hw).trusted)

theorem Knows.derivativeOf_eq (hknown : w.Knows node var d) :
    w.memo.derivativeOf var node = d := by
  rw [Memo.derivativeOf, hknown.2, Option.getD_some]

/-- What is known is what the direct recursion finds. -/
theorem Trusted.replays (hw : w.Trusted) (hknown : w.Knows node var d) {depth : Nat}
    (hdepth : w.graph.placeOf node < depth) :
    BuildM.Replays (BuildM.differentiateBelow var depth node) d w.graph :=
  ((hw.honest.memo hknown.1).derivatives hknown.2).2.2 depth hdepth

/-- Growth of the graph alone loses nothing. -/
theorem Trusted.retains_of_extends (hw : w.Trusted) (hext : w.graph.Extends w'.graph)
    (hgraph : w'.graph.WellFormed) (hmemo : w'.memo = w.memo) : w.Retains w' := by
  have hgeneration : w'.graph.generation = w.graph.generation := hext.generation_eq
  have hcurrent : w'.Current ↔ w.Current := by rw [Current, Current, hmemo, hgeneration]
  refine ⟨⟨⟨hgraph, fun hnow => ?_⟩, hgraph, fun hnow => ?_⟩, hext, fun hknown => ?_⟩
  · rw [hmemo]
    exact (hw.ready.memo (hcurrent.mp hnow)).of_extends hw.ready.graph hgraph hext
  · rw [hmemo]
    exact (hw.honest.memo (hcurrent.mp hnow)).of_extends hext
  · exact ⟨hcurrent.mpr hknown.1, hmemo ▸ hknown.2⟩

/-- Use of the memo loses nothing.  A known derivative is not replaced by another one either, since
both are what the direct recursion finds. -/
theorem Trusted.retains_of_collects {asks : List (Handle × Handle)} (hw : w.Trusted)
    (hw' : w'.Trusted) (hcollects : w.Collects asks w') : w.Retains w' := by
  refine ⟨hw', hcollects.grows.extends, fun {node var d} hknown => ?_⟩
  have hcurrent : w'.Current := by
    rcases hcollects.generation with hsame | hnow
    · rw [Current, hsame, generation_eq_of_grows hcollects.grows]
      exact hknown.1
    · exact hnow
  have hsame := (current_iff_of_current hcollects.grows hcurrent).mp hknown.1
  have hbefore : (node, var) ∈ w.memo.derivatives :=
    Std.HashMap.mem_iff_isSome_getElem?.mpr (by simp [hknown.2])
  have hmem : (node, var) ∈ w'.memo.derivatives :=
    hcollects.mem_iff.mpr (.inl ⟨hsame, hbefore⟩)
  have hknown' : w'.Knows node var (w'.memo.derivativeOf var node) :=
    ⟨hcurrent, Memo.getElem?_derivatives hmem⟩
  have hdepth : w'.graph.placeOf node < w.graph.placeOf node + 1 := by
    rw [hcollects.grows.extends.placeOf_eq]
    exact Nat.lt_succ_self _
  have heq : d = w'.memo.derivativeOf var node :=
    ((hw.replays hknown (Nat.lt_succ_self _)).extends hcollects.grows.extends).eq
      (hw'.replays hknown' hdepth) hw'.ready.graph
  rwa [heq]

end Workspace

namespace DiffM

variable {w w' : Workspace} {node var d : Handle} {outputs vars : List Handle}
  {columns : Option (List Handle)}

/-- A loop whose steps leave the state alone leaves it alone. -/
theorem mapM_eq_of_unchanged {ε σ β γ : Type} {f : β → EStateM ε σ γ} {value : β → γ} {s : σ}
    {bs : List β} (hf : ∀ b ∈ bs, f b s = .ok (value b) s) :
    bs.mapM f s = .ok (bs.map value) s := by
  induction bs with
  | nil => rfl
  | cons b rest ih =>
      obtain ⟨hb, hrest⟩ := List.forall_mem_cons.mp hf
      rw [List.mapM_cons, bind_of_ok hb, bind_of_ok (ih hrest)]
      rfl

theorem getElem?_of_known (hrun : known node var w = .ok d w') :
    w'.memo.derivatives[(node, var)]? = some d := by
  unfold known consult at hrun
  cases hfound : w.memo.derivatives[(node, var)]? with
  | none => simp [hfound] at hrun
  | some d' =>
      simp only [hfound] at hrun
      cases hrun
      exact hfound

/-- A derivative that is given out is kept. -/
theorem getElem?_of_derivative (hrun : derivative node var w = .ok d w') :
    w'.memo.derivatives[(node, var)]? = some d := by
  unfold derivative at hrun
  obtain ⟨_, w₁, -, hrun⟩ := exists_of_bind_ok hrun
  obtain ⟨_, w₂, -, hrun⟩ := exists_of_bind_ok hrun
  obtain ⟨_, w₃, -, hrun⟩ := exists_of_bind_ok hrun
  obtain ⟨_, w₄, hread, hrun⟩ := exists_of_bind_ok hrun
  cases hread
  cases hfound : w₃.memo.derivatives[(node, var)]? with
  | some d' =>
      rw [hfound] at hrun
      cases hrun
      exact hfound
  | none =>
      rw [hfound] at hrun
      obtain ⟨_, w₅, -, hrun⟩ := exists_of_bind_ok hrun
      obtain ⟨_, w₆, -, hrun⟩ := exists_of_bind_ok hrun
      exact getElem?_of_known hrun

/-- A derivative that is known is given out, and nothing changes. -/
theorem derivative_of_knows (hlive : w.graph.Live node) (hvar : w.graph.IsVariable var)
    (hknown : w.Knows node var d) : derivative node var w = .ok d w := by
  have hvalid : w.graph.validate [node, var] = .ok () :=
    validate_eq_ok_iff.mpr (by simpa using ⟨hlive, hvar.live⟩)
  have hvars : w.graph.expectVariables [var] = .ok () :=
    expectVariables_eq_ok_iff.mpr (by simpa using hvar)
  have hsync : sync w = .ok () w := by
    have hsame : w.memo.sync w.graph.generation = w.memo := if_pos hknown.1
    change EStateM.Result.ok () (Workspace.mk w.graph (w.memo.sync w.graph.generation)) = _
    rw [hsame]
  have hread : consult (fun w => .ok w.memo.derivatives[(node, var)]?) w =
      .ok (some d) w := consult_eq (by rw [hknown.2])
  rw [derivative, bind_of_ok (inspect_eq hvalid), bind_of_ok (inspect_eq hvars), bind_of_ok hsync,
    bind_of_ok hread]
  rfl

theorem derivative_recalls (hw : w.Trusted) (hlive : w.graph.Live node)
    (hvar : w.graph.IsVariable var) :
    Succeeds Remembers (derivative node var) w fun d w' => w'.Knows node var d := by
  obtain ⟨d, w', hrun, hw', hcollects⟩ := derivative_asks hw hlive hvar
  exact .of_eq hrun (fun hw => hw.retains_of_collects hw' hcollects)
    ⟨hcollects.current (by simp), getElem?_of_derivative hrun⟩

/-- Work on every element of a list, where what is said of a result survives as long as what is
known does. -/
theorem mapM_recalls {β γ : Type} {f : γ → DiffM β} {Q : γ → β → Workspace → Prop} {cs : List γ}
    (hw : w.Trusted)
    (hstable : ∀ c b w₁ w₂, Retains w₁ w₂ → Q c b w₁ → Q c b w₂)
    (hf : ∀ c ∈ cs, ∀ w', w.Retains w' → Succeeds Remembers (f c) w' (Q c)) :
    Succeeds Remembers (cs.mapM f) w fun bs w' => List.Forall₂ (fun c b => Q c b w') cs bs := by
  have hboth : ∀ c b w₁ w₂, Remembers w₁ w₂ → (w₁.Trusted ∧ Q c b w₁) →
      w₂.Trusted ∧ Q c b w₂ :=
    fun c b w₁ w₂ hkeeps ⟨hw₁, hQ⟩ => ⟨(hkeeps hw₁).trusted, hstable c b w₁ w₂ (hkeeps hw₁) hQ⟩
  refine (Succeeds.mapM hboth cs w fun c hc w' hkeeps => ?_).weaken
    fun bs w' _ hbs => hbs.imp fun _ _ hb => hb.2
  have hretains := hkeeps hw
  exact (hf c hc w' hretains).weaken
    fun b w'' hkeeps' hQ => ⟨(hkeeps' hretains.trusted).trusted, hQ⟩

/-- Afterwards all derivatives are known. -/
theorem derivativeRows_recalls {columns : List Handle} (hw : w.Trusted)
    (houtputs : ∀ out ∈ outputs, w.graph.Live out)
    (hcolumns : ∀ col ∈ columns, w.graph.IsVariable col) :
    Succeeds Remembers (derivativeRows outputs columns) w fun rows w' =>
      List.Forall₂ (fun out row => List.Forall₂ (w'.Knows out) columns row) outputs rows := by
  refine mapM_recalls hw (fun out row w₁ w₂ hretains hrow => hrow.imp fun _ _ => hretains.knows)
    fun out hout w₁ hretains₁ => ?_
  -- within a row the entries before the one at work stay known
  refine mapM_recalls hretains₁.trusted (fun col d w₂ w₃ hretains => hretains.knows)
    fun col hcol w₂ hretains₂ => ?_
  have hretains := hretains₁.trans hretains₂
  exact derivative_recalls hretains.trusted (hretains.grown.live (houtputs out hout))
    (hretains.grown.isVariable (hcolumns col hcol))

theorem row_of_knows {out : Handle} {columns row : List Handle}
    (hrow : List.Forall₂ (w.Knows out) columns row) :
    row = columns.map (fun col => w.memo.derivativeOf col out) ∧
      ∀ col ∈ columns, w.Knows out col (w.memo.derivativeOf col out) := by
  induction hrow with
  | nil => simp
  | cons hhead _ ih =>
      rw [List.map_cons, List.forall_mem_cons, hhead.derivativeOf_eq, ← ih.1]
      exact ⟨rfl, hhead, ih.2⟩

/-- Rows of derivatives that are known are those that the memo has. -/
theorem rows_of_knows {columns : List Handle} {rows : List (List Handle)}
    (hrows : List.Forall₂ (fun out row => List.Forall₂ (w.Knows out) columns row) outputs rows) :
    rows = outputs.map (fun out => columns.map fun col => w.memo.derivativeOf col out) ∧
      ∀ out ∈ outputs, ∀ col ∈ columns, w.Knows out col (w.memo.derivativeOf col out) := by
  induction hrows with
  | nil => simp
  | cons hhead _ ih =>
      obtain ⟨hrow, hknown⟩ := row_of_knows hhead
      rw [List.map_cons, List.forall_mem_cons, ← hrow, ← ih.1]
      exact ⟨rfl, hknown, ih.2⟩

/-- A Jacobian is the table of what is known afterwards. -/
theorem jacobian_recalls (hw : w.Trusted) (columns : Option (List Handle))
    (hargs : w.graph.Differentiable outputs vars (columns.getD [])) :
    Succeeds Remembers (jacobian outputs vars columns) w fun m w' =>
      m = Matrix.table outputs (columns.getD vars) (fun out col => w'.memo.derivativeOf col out) ∧
        ∀ out ∈ outputs, ∀ col ∈ columns.getD vars,
          w'.Knows out col (w'.memo.derivativeOf col out) := by
  apply Succeeds.bind_eq (resolveColumns_eq columns hargs)
  refine .bind (derivativeRows_recalls hw hargs.live hargs.isVariable_columns)
    fun rows w' _ hrows => ?_
  obtain ⟨rfl, hknown⟩ := rows_of_knows hrows
  exact .pure ⟨rfl, hknown⟩

/-- A Jacobian whose entries are known is given out, and nothing changes. -/
theorem jacobian_of_knows (columns : Option (List Handle))
    (hargs : w.graph.Differentiable outputs vars (columns.getD []))
    {entry : Handle → Handle → Handle}
    (hknown : ∀ out ∈ outputs, ∀ col ∈ columns.getD vars, w.Knows out col (entry out col)) :
    jacobian outputs vars columns w =
      .ok (Matrix.table outputs (columns.getD vars) entry) w := by
  have hrows : derivativeRows outputs (columns.getD vars) w =
      .ok (outputs.map fun out => (columns.getD vars).map (entry out)) w :=
    mapM_eq_of_unchanged fun out hout => mapM_eq_of_unchanged fun col hcol =>
      derivative_of_knows (hargs.live out hout) (hargs.isVariable_columns col hcol)
        (hknown out hout col hcol)
  rw [jacobian, bind_of_ok (resolveColumns_eq columns hargs), bind_of_ok hrows]
  rfl

end DiffM

end ExprGraph
