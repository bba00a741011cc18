import Mathlib
import ExprGraph.Derivative.Memo
import ExprGraph.Proofs.Graph.Building
import ExprGraph.Proofs.Derivative.Growth

/-!
# Soundness of the memo

The entries of a memo that belongs to its graph have the values they stand for: a derivative that of
the tangent of its node, a local partial that of the slope of its operator.  Work on a ready
workspace keeps this, lets the graph grow and forgets no derivative of the current generation.
-/

namespace ExprGraph

namespace Formula

/-- The formula refers to the first `count` operands only, and applies operators to as many operands
as they take. -/
def Fits (count : Nat) : Formula → Prop
  | self => True
  | operand index => index < count
  | literal _ => True
  | unary op a => op.arity = 1 ∧ a.Fits count
  | binary op a b => op.arity = 2 ∧ a.Fits count ∧ b.Fits count
  | select c a b => c.Fits count ∧ a.Fits count ∧ b.Fits count
  | after first second => first.Fits count ∧ second.Fits count

end Formula

/-- The rules of differentiation refer to operands there are. -/
theorem Op.partialBy_fits (op : Op) {index : Nat} (hindex : index < op.arity) :
    (op.partialBy index).Fits op.arity := by
  cases op <;> simp only [Op.partialBy, Op.arity] at hindex ⊢ <;> (try split) <;>
    simp [Formula.Fits, Formula.square, Formula.coLeg, Op.arity]

namespace BuildM

open ExprGraph.Graph

/-- The node of a formula has the value of the formula. -/
theorem formula_succeeds {node : Handle} {args : List Handle} {f : ∀ r : Reading, r.R}
    {fs : List (∀ r : Reading, r.R)} {formula : Formula} {g : Graph} (hg : g.WellFormed)
    (hfits : formula.Fits args.length) (hnode : g.Denotes node f)
    (hargs : List.Forall₂ g.Denotes args fs) :
    Succeeds Grows (formula.build node args) g fun h g' =>
      g'.Denotes h fun r => formula.value r.interp (f r) (fs.map fun f => f r) := by
  induction formula generalizing g with
  | self => exact .pure hnode
  | operand index =>
      have hindex : index < fs.length := hargs.length_eq ▸ hfits
      have harg := hargs.get hfits hindex
      rw [Formula.build, List.getElem?_eq_getElem hfits]
      refine .pure (harg.congr fun _ r => ?_)
      simp [Formula.value, List.getD, hindex]
  | literal v => exact literal_succeeds hg v
  | unary op a iha =>
      apply Succeeds.bind (iha hg hfits.2 hnode hargs)
      intro a g' hgrows ha
      exact unary_succeeds (hg.grows hgrows) hfits.1 ha
  | binary op a b iha ihb =>
      apply Succeeds.bind (iha hg hfits.2.1 hnode hargs)
      intro a g' hgrows ha
      have hg' := hg.grows hgrows
      apply Succeeds.bind (ihb hg' hfits.2.2 (hnode.grows hg hgrows)
        (denotes_list_grows hargs hg hgrows))
      intro b g'' hgrows' hb
      exact binary_succeeds (hg'.grows hgrows') hfits.1 (ha.grows hg' hgrows') hb
  | select c a b ihc iha ihb =>
      apply Succeeds.bind (ihc hg hfits.1 hnode hargs)
      intro c g₁ hgrows hc
      have hg₁ := hg.grows hgrows
      have hnode₁ := hnode.grows hg hgrows
      have hargs₁ := denotes_list_grows hargs hg hgrows
      apply Succeeds.bind (iha hg₁ hfits.2.1 hnode₁ hargs₁)
      intro a g₂ hgrows₁ ha
      have hg₂ := hg₁.grows hgrows₁
      apply Succeeds.bind (ihb hg₂ hfits.2.2 (hnode₁.grows hg₁ hgrows₁)
        (denotes_list_grows hargs₁ hg₁ hgrows₁))
      intro b g₃ hgrows₂ hb
      have hc₃ := (hc.grows hg₁ hgrows₁).grows hg₂ hgrows₂
      exact operation_succeeds (hg₂.grows hgrows₂) rfl
        (.cons hc₃ (.cons (ha.grows hg₂ hgrows₂) (.cons hb .nil)))
  | after first second ihfirst ihsecond =>
      apply Succeeds.bind (ihfirst hg hfits.1 hnode hargs)
      intro _ g' hgrows _
      exact ihsecond (hg.grows hgrows) hfits.2 (hnode.grows hg hgrows)
        (denotes_list_grows hargs hg hgrows)

end BuildM

namespace Graph

variable {g g' : Graph}

/-- The derivative of a node by a variable. -/
def derivativeOf (g : Graph) (node var : Handle) (r : Reading) : r.R :=
  g.tangent r (r.direction var) node

/-- The local partial derivative of an application by one of its operands. -/
def slopeOf (g : Graph) (app : Application) (index : Nat) (r : Reading) : r.R :=
  r.interp.slope app.op (app.args.map (g.read r)) index

namespace WellFormed

theorem derivativeOf_extends (hg : g.WellFormed) (hg' : g'.WellFormed) (hext : g.Extends g')
    {node : Handle} (hlive : g.Live node) (var : Handle) :
    g'.derivativeOf node var = g.derivativeOf node var := by
  funext r
  exact hg.tangent_extends hg' hext hlive

theorem derivativeOf_grows (hg : g.WellFormed) (hgrows : g.Grows g') {node : Handle}
    (hlive : g.Live node) (var : Handle) : g'.derivativeOf node var = g.derivativeOf node var :=
  hg.derivativeOf_extends (hg.grows hgrows) hgrows.extends hlive var

theorem map_read_extends (hg : g.WellFormed) (hg' : g'.WellFormed) (hext : g.Extends g')
    {hs : List Handle} (hlive : ∀ h ∈ hs, g.Live h) (r : Reading) :
    hs.map (g'.read r) = hs.map (g.read r) :=
  List.map_congr_left fun h hh => hg.read_extends hg' hext (hlive h hh)

theorem map_read_grows (hg : g.WellFormed) (hgrows : g.Grows g') {hs : List Handle}
    (hlive : ∀ h ∈ hs, g.Live h) (r : Reading) : hs.map (g'.read r) = hs.map (g.read r) :=
  hg.map_read_extends (hg.grows hgrows) hgrows.extends hlive r

theorem slopeOf_extends (hg : g.WellFormed) (hg' : g'.WellFormed) (hext : g.Extends g')
    {app : Application} (hlive : ∀ a ∈ app.args, g.Live a) (index : Nat) :
    g'.slopeOf app index = g.slopeOf app index := by
  funext r
  rw [slopeOf, hg.map_read_extends hg' hext hlive, slopeOf]

theorem slopeOf_grows (hg : g.WellFormed) (hgrows : g.Grows g') {app : Application}
    (hlive : ∀ a ∈ app.args, g.Live a) (index : Nat) :
    g'.slopeOf app index = g.slopeOf app index :=
  hg.slopeOf_extends (hg.grows hgrows) hgrows.extends hlive index

end WellFormed

end Graph

/-- The entries of a memo have the values they stand for. -/
structure Memo.SoundIn (memo : Memo) (g : Graph) : Prop where
  derivatives {node var d : Handle} : memo.derivatives[(node, var)]? = some d →
    g.Live node ∧ g.Denotes d (g.derivativeOf node var)
  partials {node p : Handle} {index : Nat} : memo.partials[(node, index)]? = some p →
    ∃ app, g.node node = .ok (.app app) ∧ g.Denotes p (g.slopeOf app index)

theorem Memo.SoundIn.of_extends {memo : Memo} {g g' : Graph} (hmemo : memo.SoundIn g)
    (hg : g.WellFormed) (hg' : g'.WellFormed) (hext : g.Extends g') : memo.SoundIn g' where
  derivatives hfound := by
    obtain ⟨hlive, hd⟩ := hmemo.derivatives hfound
    refine ⟨hext.live hlive, ?_⟩
    rw [hg.derivativeOf_extends hg' hext hlive]
    exact hd.of_extends hg hg' hext
  partials hfound := by
    obtain ⟨app, hn, hp⟩ := hmemo.partials hfound
    refine ⟨app, hext.node_eq hn, ?_⟩
    rw [hg.slopeOf_extends hg' hext fun a ha => hg.live hn ha]
    exact hp.of_extends hg hg' hext

namespace Workspace

/-- The memo belongs to the graph as it is now. -/
def Current (w : Workspace) : Prop := w.memo.generation = some w.graph.generation

/-- The graph is well-formed, and its own memo is sound. -/
structure Ready (w : Workspace) : Prop where
  graph : w.graph.WellFormed
  memo : w.Current → w.memo.SoundIn w.graph

/-- What work does to a workspace that is ready. -/
structure Progress (w w' : Workspace) : Prop where
  ready : w'.Ready
  grows : w.graph.Grows w'.graph
  /-- A memo that changes belongs to the graph afterwards. -/
  memo : w'.memo = w.memo ∨ w'.Current
  known : w.Current → ∀ key ∈ w.memo.derivatives, key ∈ w'.memo.derivatives

/-- The workspace makes progress, if it is ready. -/
def Advances (w w' : Workspace) : Prop := w.Ready → w.Progress w'

variable {w w' w'' : Workspace}

theorem current_of_grows (hcurrent : w.Current) (hgrows : w.graph.Grows w'.graph)
    (hmemo : w'.memo = w.memo) : w'.Current := by
  have hgeneration : w'.graph.generation = w.graph.generation := hgrows.extends.generation_eq
  rw [Current, hmemo, hgeneration]
  exact hcurrent

theorem Progress.current (hprogress : w.Progress w') (hcurrent : w.Current) : w'.Current := by
  rcases hprogress.memo with hsame | hcurrent'
  · exact current_of_grows hcurrent hprogress.grows hsame
  · exact hcurrent'

theorem Ready.progress_refl (hw : w.Ready) : w.Progress w :=
  ⟨hw, refl w.graph, .inl rfl, fun _ _ hkey => hkey⟩

theorem Progress.trans (hfirst : w.Progress w') (hrest : w'.Progress w'') : w.Progress w'' where
  ready := hrest.ready
  grows := hfirst.grows.trans hrest.grows
  memo := by
    rcases hrest.memo with hsame | hcurrent
    · rcases hfirst.memo with hsame' | hcurrent'
      · exact .inl (hsame.trans hsame')
      · exact .inr (current_of_grows hcurrent' hrest.grows hsame)
    · exact .inr hcurrent
  known hcurrent key hkey :=
    hrest.known (hfirst.current hcurrent) key (hfirst.known hcurrent key hkey)

instance : IsPreorder Workspace Advances where
  refl _ := Ready.progress_refl
  trans _ _ _ hfirst hrest := fun hw => (hfirst hw).trans (hrest (hfirst hw).ready)

/-- Growth of the graph alone keeps a workspace ready. -/
theorem Ready.progress_grows (hw : w.Ready) (hgrows : w.graph.Grows w'.graph)
    (hmemo : w'.memo = w.memo) : w.Progress w' where
  ready := by
    constructor
    · exact hw.graph.grows hgrows
    intro hcurrent
    have hbefore : w.Current := by
      have hgeneration : w'.graph.generation = w.graph.generation := hgrows.extends.generation_eq
      rw [Current, hmemo, hgeneration] at hcurrent
      exact hcurrent
    rw [hmemo]
    exact (hw.memo hbefore).of_extends hw.graph (hw.graph.grows hgrows) hgrows.extends
  grows := hgrows
  memo := .inl hmemo
  known _ key hkey := by
    rw [hmemo]
    exact hkey

end Workspace

namespace DiffM

open Workspace

variable {α : Type} {w : Workspace}

theorem inspect_eq {f : Graph → Except GraphError α} {a : α} (hf : f w.graph = .ok a) :
    inspect f w = .ok a w := by
  obtain ⟨graph, memo⟩ := w
  apply onGraph_of_ok
  rw [BuildM.inspect, hf]

theorem inspect_eq_error {f : Graph → Except GraphError α} {e : GraphError}
    (hf : f w.graph = .error e) : inspect f w = .error (.refused e) w := by
  obtain ⟨graph, memo⟩ := w
  apply onGraph_of_error
  rw [BuildM.inspect, hf]

theorem consult_eq {f : Workspace → Except Failure α} {a : α} (hf : f w = .ok a) :
    consult f w = .ok a w := by
  rw [consult, hf]

theorem onGraph_succeeds {work : BuildM α} {Q : α → Graph → Prop}
    (hwork : Succeeds Graph.Grows work w.graph Q) :
    Succeeds Advances (onGraph work) w fun a w' => Q a w'.graph := by
  obtain ⟨a, graph', hrun, hgrows, hQ⟩ := hwork
  exact ⟨a, ⟨graph', w.memo⟩, onGraph_of_ok hrun, fun hw => hw.progress_grows hgrows rfl, hQ⟩

/-- Looking whether a memo belongs to the graph makes it belong there. -/
theorem sync_succeeds : Succeeds Advances sync w fun _ w' =>
    w'.Current ∧ w'.graph = w.graph ∧
      ∀ key ∈ w'.memo.derivatives, w.Current ∧ key ∈ w.memo.derivatives := by
  by_cases hcurrent : w.Current
  · have hsync : sync w = .ok () w := by
      have hsame : w.memo.sync w.graph.generation = w.memo := if_pos hcurrent
      change EStateM.Result.ok () (Workspace.mk w.graph (w.memo.sync w.graph.generation)) = _
      rw [hsame]
    exact .of_eq hsync (refl w) ⟨hcurrent, rfl, fun key hkey => ⟨hcurrent, hkey⟩⟩
  · have hfresh : w.memo.sync w.graph.generation = { generation := some w.graph.generation } :=
      if_neg hcurrent
    have hsync : sync w = .ok () ⟨w.graph, { generation := some w.graph.generation }⟩ := by
      rw [← hfresh]
      rfl
    refine .of_eq hsync (fun hw => ⟨⟨hw.graph, fun _ => ⟨?_, ?_⟩⟩, refl w.graph, .inr rfl,
      fun h => absurd h hcurrent⟩) ⟨rfl, rfl, fun key hkey => ?_⟩
    · intro node var d hfound
      simp at hfound
    · intro node p index hfound
      simp at hfound
    · simp at hkey

/-- Keeping a derivative that has the right value. -/
theorem keep_succeeds {node var d : Handle} (hcurrent : w.Current) (hlive : w.graph.Live node)
    (hd : w.graph.Denotes d (w.graph.derivativeOf node var)) :
    Succeeds Advances (keep node var d) w fun _ w' => (node, var) ∈ w'.memo.derivatives := by
  refine .of_eq rfl (fun hw => ⟨⟨hw.graph, fun _ => ⟨?_, (hw.memo hcurrent).partials⟩⟩,
    refl w.graph, .inr hcurrent, fun _ key hkey => ?_⟩) ?_
  · intro node' var' d' hfound
    change (w.memo.derivatives.insert (node, var) d)[(node', var')]? = some d' at hfound
    rw [Std.HashMap.getElem?_insert] at hfound
    split at hfound
    · next hkey =>
      cases eq_of_beq hkey
      cases hfound
      exact ⟨hlive, hd⟩
    · exact (hw.memo hcurrent).derivatives hfound
  · exact Std.HashMap.mem_insert.mpr (.inr hkey)
  · exact Std.HashMap.mem_insert_self

/-- The local partial of a node has the value of its slope. -/
theorem partialOf_succeeds {node : Handle} {app : Application} {index : Nat} (hw : w.Ready)
    (hcurrent : w.Current) (hn : w.graph.node node = .ok (.app app))
    (hindex : index < app.args.length) :
    Succeeds Advances (partialOf node app index) w fun p w' =>
      w'.graph.Denotes p (w.graph.slopeOf app index) := by
  unfold partialOf
  apply Succeeds.bind_eq (consult_eq rfl)
  split
  · next p hfound =>
    obtain ⟨app', hn', hp⟩ := (hw.memo hcurrent).partials hfound
    cases hn.symm.trans hn'
    exact .pure hp
  · have harity := hw.graph.arity hn
    have hlive : ∀ a ∈ app.args, w.graph.Live a := fun a ha => hw.graph.live hn ha
    have hfits := app.op.partialBy_fits (harity ▸ hindex)
    apply Succeeds.bind (onGraph_succeeds (BuildM.formula_succeeds hw.graph (harity ▸ hfits)
      (.of_live ⟨_, hn⟩) (Graph.denotes_list_read hlive)))
    intro p w' hadv hp
    have hprogress := hadv hw
    have hslope : w'.graph.Denotes p (w.graph.slopeOf app index) := by
      apply hp.congr
      intro _ r
      rw [List.map_map, hw.graph.read_of_app hn]
      rfl
    have hcurrent' := hprogress.current hcurrent
    have hn' := hprogress.grows.extends.node_eq hn
    refine .bind (.of_eq rfl (fun hw' => ⟨⟨hw'.graph, fun _ =>
      ⟨(hw'.memo hcurrent').derivatives, ?_⟩⟩, refl w'.graph, .inr hcurrent', fun _ _ hkey => hkey⟩)
      hslope) fun _ w'' _ hp'' => .pure hp''
    intro node' p' index' hfound
    change (w'.memo.partials.insert (node, index) p)[(node', index')]? = some p' at hfound
    rw [Std.HashMap.getElem?_insert] at hfound
    split at hfound
    · next hkey =>
      cases eq_of_beq hkey
      cases hfound
      refine ⟨app, hn', ?_⟩
      rw [hw.graph.slopeOf_grows hprogress.grows hlive]
      exact hslope
    · exact (hw'.memo hcurrent').partials hfound

end DiffM

end ExprGraph
