import Mathlib
import ExprGraph.Proofs.Derivative.Progress
import ExprGraph.Proofs.Graph.Replay
import ExprGraph.Proofs.SparseMatrix

/-!
# Answers of calls

The handles that a call answers with name nodes of its graph, whatever its arguments are: work with
unusable arguments is refused, and all other work is known to give live nodes.
-/

namespace ExprGraph

open Workspace SparseMatrix

open ExprGraph.Graph

namespace BuildM

variable {g : Graph}

theorem validate_gives (g : Graph) (hs : List Handle) :
    Gives Graph.Grows (inspect fun g => g.validate hs) g fun _ g' => ∀ h ∈ hs, g'.Live h := by
  cases hvalid : g.validate hs with
  | error e => exact .of_error (by rw [inspect, hvalid])
  | ok _ =>
      have hrun : inspect (fun g => g.validate hs) g = .ok () g := by rw [inspect, hvalid]
      exact (Succeeds.of_eq hrun (refl g) (validate_eq_ok_iff.mp hvalid)).gives

theorem extend_gives {α : Type} {f : Graph → α × Graph} {Q : α → Graph → Prop}
    (hgrows : g.Grows (f g).2) (hQ : Q (f g).1 (f g).2) : Gives Graph.Grows (extend f) g Q := by
  intro a g' hrun
  cases hrun
  exact ⟨hgrows, hQ⟩

/-- An application is live when it is built at all. -/
theorem operation_gives (hg : g.WellFormed) (op : Op) (args : List Handle) :
    Gives Graph.Grows (operation op args) g fun h g' => g'.Live h := by
  rcases operation_cases op args g with ⟨e, hrefused⟩ | ⟨harity, hlive, -⟩
  · exact .of_error hrefused
  · exact ((operation_succeeds hg harity (denotes_list_read hlive)).weaken
      fun _ _ _ hh => hh.1).gives

theorem literal_gives (hg : g.WellFormed) (v : Float) :
    Gives Graph.Grows (literal v) g fun h g' => g'.Live h :=
  ((literal_succeeds hg v).weaken fun _ _ _ hh => hh.1).gives

/-- Nodes that are joined from left to right. -/
theorem foldlM_gives (hg : g.WellFormed) (op : Op) {first : Handle} (rest : List Handle)
    (hfirst : g.Live first) :
    Gives Graph.Grows (rest.foldlM (fun total term => operation op [total, term]) first) g
      fun h g' => g'.Live h := by
  refine (Gives.foldlM (P := fun h g' => g'.WellFormed ∧ g'.Live h)
    (fun term _ total g' hg' => ?_) ⟨hg, hfirst⟩).weaken fun _ _ _ hh => hh.2
  exact (operation_gives hg'.1 op [total, term]).weaken fun _ _ hgrows hh =>
    ⟨hg'.1.grows hgrows, hh⟩

theorem sum_gives (hg : g.WellFormed) (terms : List Handle) :
    Gives Graph.Grows (sum terms) g fun h g' => g'.Live h := by
  cases terms with
  | nil => exact literal_gives hg 0.0
  | cons first rest =>
      exact .bind (validate_gives g [first]) fun _ g' hgrows hlive =>
        foldlM_gives (hg.grows hgrows) .add rest (hlive first List.mem_cons_self)

theorem product_gives (hg : g.WellFormed) (factors : List Handle) :
    Gives Graph.Grows (product factors) g fun h g' => g'.Live h := by
  cases factors with
  | nil => exact literal_gives hg 1.0
  | cons first rest =>
      exact .bind (validate_gives g [first]) fun _ g' hgrows hlive =>
        foldlM_gives (hg.grows hgrows) .mul rest (hlive first List.mem_cons_self)

theorem dot_gives (hg : g.WellFormed) (left right : List Handle) :
    Gives Graph.Grows (dot left right) g fun h g' => g'.Live h := by
  unfold dot
  split
  · exact .of_error rfl
  · exact .bind ((Keeps.mapM (fun _ => operation_keeps .mul _) _).gives g) fun terms g' hgrows _ =>
      sum_gives (hg.grows hgrows) terms

theorem powLiteral_gives (hg : g.WellFormed) (a : Handle) (exponent : Float) :
    Gives Graph.Grows (powLiteral a exponent) g fun h g' => g'.Live h :=
  .bind (literal_gives hg exponent) fun e _ hgrows _ =>
    operation_gives (hg.grows hgrows) .pow [a, e]

theorem scale_gives (hg : g.WellFormed) (factor : Float) (a : Handle) :
    Gives Graph.Grows (scale factor a) g fun h g' => g'.Live h :=
  .bind (literal_gives hg factor) fun c _ hgrows _ => operation_gives (hg.grows hgrows) .mul [c, a]

end BuildM

namespace DiffM

variable {α : Type} {w : Workspace}

theorem onGraph_gives {work : BuildM α} {Q : α → Graph → Prop}
    (hwork : Gives Graph.Grows work w.graph Q) :
    Gives Advances (onGraph work) w fun a w' => Q a w'.graph := by
  intro a w' hrun
  obtain ⟨graph, memo⟩ := w
  cases hbuilt : work graph with
  | error e graph' =>
      rw [onGraph_of_error hbuilt] at hrun
      cases hrun
  | ok b graph' =>
      rw [onGraph_of_ok hbuilt] at hrun
      cases hrun
      obtain ⟨hgrows, hQ⟩ := hwork a graph' hbuilt
      exact ⟨fun hw => hw.progress_grows hgrows rfl, hQ⟩

theorem derivative_gives (hw : w.Ready) (node var : Handle) :
    Gives Advances (derivative node var) w fun d w' => w'.graph.Live d := by
  by_cases hargs : w.graph.Live node ∧ w.graph.IsVariable var
  · exact ((derivative_succeeds hw hargs.1 hargs.2).weaken fun _ _ _ hd => hd.1).gives
  · obtain ⟨e, hrefused⟩ := derivative_refused hargs
    exact .of_error hrefused

theorem derivativeWrt_gives (hw : w.Ready) (node : Handle) (vars : List Handle) :
    Gives Advances (derivativeWrt node vars) w fun d w' => w'.graph.Live d := by
  refine .bind (onGraph_gives (BuildM.validate_gives w.graph [node])) fun _ w' hadv hlive => ?_
  refine (Gives.foldlM (P := fun d w' => w'.Ready ∧ w'.graph.Live d)
    (fun var _ d w'' hd => ?_) ⟨(hadv hw).ready, hlive node List.mem_cons_self⟩).weaken
    fun _ _ _ hd => hd.2
  exact (derivative_gives hd.1 d var).weaken fun _ _ hadv' hd' => ⟨(hadv' hd.1).ready, hd'⟩

theorem mem_of_checkColumns {vars columns : List Handle} {position : Nat}
    (hcheck : checkColumns vars position columns = .ok ()) : ∀ col ∈ columns, col ∈ vars := by
  induction columns generalizing position with
  | nil => exact fun col hcol => absurd hcol List.not_mem_nil
  | cons first rest ih =>
      rw [checkColumns] at hcheck
      split at hcheck
      · next hfirst => exact List.forall_mem_cons.mpr ⟨by simpa using hfirst, ih hcheck⟩
      · cases hcheck

/-- The columns of a Jacobian are checked before anything is done: they are refused, or else
everything is as it should be. -/
theorem resolveColumns_cases (outputs vars : List Handle) (columns : Option (List Handle))
    (w : Workspace) :
    (∃ e, resolveColumns outputs vars columns w = .error (.refused e) w) ∨
      (resolveColumns outputs vars columns w = .ok (columns.getD vars) w ∧
        (∀ out ∈ outputs, w.graph.Live out) ∧
        ∀ col ∈ columns.getD vars, w.graph.IsVariable col) := by
  unfold resolveColumns
  cases hvalid : w.graph.validate outputs with
  | error e => exact .inl ⟨e, bind_of_error (inspect_eq_error hvalid)⟩
  | ok _ =>
      rw [bind_of_ok (inspect_eq hvalid)]
      cases hvars : w.graph.expectVariables vars with
      | error e => exact .inl ⟨e, bind_of_error (inspect_eq_error hvars)⟩
      | ok _ =>
          rw [bind_of_ok (inspect_eq hvars)]
          have houtputs := validate_eq_ok_iff.mp hvalid
          have hvariables := expectVariables_eq_ok_iff.mp hvars
          cases columns with
          | none => exact .inr ⟨rfl, houtputs, hvariables⟩
          | some columns =>
              cases hcheck : checkColumns vars 0 columns with
              | error e => exact .inl ⟨e, bind_of_error (inspect_eq_error hcheck)⟩
              | ok _ =>
                  refine .inr ⟨bind_of_ok (inspect_eq hcheck), houtputs, fun col hcol => ?_⟩
                  exact hvariables col (mem_of_checkColumns hcheck col hcol)

theorem live_of_rows {g : Graph} {outputs : List Handle} {rows : List (List Handle)}
    {fs : Handle → List (∀ r : Reading, r.R)}
    (hrows : List.Forall₂ (fun out row => List.Forall₂ g.Denotes row (fs out)) outputs rows) :
    ∀ d ∈ rows.flatten, g.Live d := by
  intro d hd
  obtain ⟨row, hrow, hd⟩ := List.mem_flatten.mp hd
  exact forall_mem_of_forall₂ (hrows.imp fun _ _ => live_of_denotes_list) row hrow d hd

theorem jacobian_gives (hw : w.Ready) (outputs vars : List Handle)
    (columns : Option (List Handle)) :
    Gives Advances (jacobian outputs vars columns) w fun m w' =>
      ∀ d ∈ m.toList, w'.graph.Live d := by
  rcases resolveColumns_cases outputs vars columns w with
    ⟨e, hrefused⟩ | ⟨hresolved, houtputs, hcolumns⟩
  · exact .of_error (bind_of_error hrefused)
  · apply Succeeds.gives
    apply Succeeds.bind_eq hresolved
    exact .bind (derivativeRows_succeeds hw houtputs hcolumns) fun rows w' _ hrows =>
      .pure (by simpa [Matrix.toList] using live_of_rows hrows)

theorem gradient_gives (hw : w.Ready) (node : Handle) (vars : List Handle) :
    Gives Advances (gradient node vars) w fun slopes w' => ∀ d ∈ slopes, w'.graph.Live d :=
  .bind (jacobian_gives hw [node] vars none) fun _ _ _ hlive => .pure hlive

theorem hessian_gives (hw : w.Ready) (node : Handle) (vars : List Handle) :
    Gives Advances (hessian node vars) w fun m w' => ∀ d ∈ m.toList, w'.graph.Live d :=
  .bind (gradient_gives hw node vars) fun slopes _ hadv _ =>
    jacobian_gives (hadv hw).ready slopes vars none

/-- The entries of a row are the derivatives that are no zero literals, now or later. -/
theorem sparseRow_of_row (hw : w.Ready) {out : Handle} {columns ds : List Handle} {w' : Workspace}
    (hrow : columns.mapM (fun col => derivative out col) w = .ok ds w') {g : Graph}
    (hlater : w'.graph.Extends g) (row col : Nat) :
    sparseRow row out col columns w = .ok (keptRow g.isZero row col ds) w' := by
  induction columns generalizing w ds col with
  | nil =>
      cases hrow
      rfl
  | cons var rest ih =>
      rw [List.mapM_cons] at hrow
      obtain ⟨d, w₁, hd, hrest⟩ := exists_of_bind_ok hrow
      obtain ⟨others, w₂, hothers, hpure⟩ := exists_of_bind_ok hrest
      cases hpure
      obtain ⟨hadv, hlive⟩ := derivative_gives hw out var d w₁ hd
      have hgrows : w₁.Grows w' :=
        ((Keeps.mapM (derivative_keeps out) rest).gives w₁ others w' hothers).1
      have hzero : isZero d w₁ = .ok (g.isZero d) w₁ := by
        rw [Graph.isZero, (hgrows.extends.trans hlater).holds_eq Node.isZero hlive]
        rfl
      rw [sparseRow, bind_of_ok hd, bind_of_ok hzero,
        bind_of_ok (ih (hadv hw).ready hothers (col + 1)), keptRow_cons]
      rfl

/-- The same of all rows: a sparse Jacobian is built as a dense one is. -/
theorem sparseRows_of_rows (hw : w.Ready) {outputs columns : List Handle}
    {rows : List (List Handle)} {w' : Workspace}
    (hrows : derivativeRows outputs columns w = .ok rows w') (row : Nat) :
    sparseRows columns row outputs w = .ok (keptRows w'.graph.isZero row rows) w' := by
  unfold derivativeRows at hrows
  induction outputs generalizing w rows row with
  | nil =>
      cases hrows
      rfl
  | cons out rest ih =>
      rw [List.mapM_cons] at hrows
      obtain ⟨ds, w₁, hds, hrest⟩ := exists_of_bind_ok hrows
      obtain ⟨others, w₂, hothers, hpure⟩ := exists_of_bind_ok hrest
      cases hpure
      have hready : w₁.Ready :=
        (((Keeps.mapM (derivative_advances out) columns).gives w ds w₁ hds).1 hw).ready
      have hgrows : w₁.Grows w' :=
        ((Keeps.mapM (fun out => Keeps.mapM (derivative_keeps out) columns) rest).gives w₁ others w'
          hothers).1
      rw [sparseRows, bind_of_ok (sparseRow_of_row hw hds hgrows.extends row 0),
        bind_of_ok (ih hready hothers (row + 1)), keptRows_cons]
      rfl

theorem sparseJacobian_gives (hw : w.Ready) (outputs vars : List Handle) :
    Gives Advances (sparseJacobian outputs vars) w fun m w' =>
      ∀ entry ∈ m.entries.toList, w'.graph.Live entry.2.2 := by
  rcases resolveColumns_cases outputs vars none w with
    ⟨e, hrefused⟩ | ⟨hresolved, houtputs, hcolumns⟩
  · exact .of_error (bind_of_error hrefused)
  · obtain ⟨rows, w', hrun, hadv, hrows⟩ := derivativeRows_succeeds hw houtputs hcolumns
    apply Succeeds.gives
    apply Succeeds.bind_eq hresolved
    have hlive : ∀ entry ∈ keptRows w'.graph.isZero 0 rows, w'.graph.Live entry.2.2 :=
      fun entry hentry => live_of_rows hrows _ (mem_flatten_of_mem_keptRows hentry)
    exact .bind (P := fun entries w'' => ∀ entry ∈ entries, w''.graph.Live entry.2.2)
      (.of_eq (sparseRows_of_rows hw hrun 0) hadv hlive) fun _ _ _ hlive' => .pure hlive'

theorem jacobianTimes_gives (hw : w.Ready) (outputs vars : List Handle) :
    Gives Advances (jacobianTimes outputs vars) w fun p w' =>
      ∀ h ∈ p.product ++ p.seeds, w'.graph.Live h := by
  by_cases hargs : (∀ out ∈ outputs, w.graph.Live out) ∧ ∀ var ∈ vars, w.graph.IsVariable var
  · refine ((jacobianTimes_succeeds hw hargs.1 hargs.2).weaken ?_).gives
    rintro p w' - ⟨-, hseeds, hproduct⟩
    exact List.forall_mem_append.mpr ⟨live_of_denotes_list hproduct, fun seed hseed =>
      (hseeds.isVariable seed hseed).live⟩
  · obtain ⟨e, hrefused⟩ := checkArguments_refused hargs
    exact .of_error (bind_of_error hrefused)

theorem transposeTimes_gives (hw : w.Ready) (outputs vars : List Handle) :
    Gives Advances (transposeTimes outputs vars) w fun p w' =>
      ∀ h ∈ p.product ++ p.seeds, w'.graph.Live h := by
  by_cases hargs : (∀ out ∈ outputs, w.graph.Live out) ∧ ∀ var ∈ vars, w.graph.IsVariable var
  · refine ((transposeTimes_succeeds hw hargs.1 hargs.2).weaken ?_).gives
    rintro p w' - ⟨-, hseeds, hproduct⟩
    exact List.forall_mem_append.mpr ⟨live_of_denotes_list hproduct, fun seed hseed =>
      (hseeds.isVariable seed hseed).live⟩
  · obtain ⟨e, hrefused⟩ := checkArguments_refused hargs
    exact .of_error (bind_of_error hrefused)

end DiffM

/-- All handles in the answer of a call are live. -/
theorem Call.answer_live (call : Call) {w : Workspace} (hw : w.Ready) :
    Gives Advances call.run w fun answer w' => ∀ h ∈ answer.toList, w'.graph.Live h := by
  have hgraph := hw.graph
  have hone : ∀ {work : DiffM Handle}, Gives Advances work w (fun h w' => w'.graph.Live h) →
      Gives Advances (do return Answer.handle (← work)) w
        fun answer w' => ∀ h ∈ answer.toList, w'.graph.Live h :=
    fun hwork => .bind hwork fun h _ _ hlive => .pure (by simpa [Answer.toList] using hlive)
  cases call with
  | declare name =>
      have hdeclare : Gives Graph.Grows (BuildM.extend fun g => g.declare name) w.graph
          fun h g' => g'.Live h :=
        BuildM.extend_gives (Step.declare name).grows (isVariable_declare w.graph name).live
      have hanswer : Gives Graph.Grows
          (do return Answer.handle (← BuildM.extend fun g => g.declare name)) w.graph
          fun answer g' => ∀ h ∈ answer.toList, g'.Live h :=
        .bind hdeclare fun h _ _ hlive => .pure (by simpa [Answer.toList] using hlive)
      exact DiffM.onGraph_gives hanswer
  | declareMany stem count =>
      have hfresh := (w.graph.declareFrom_fresh stem 1 count).2
      have hdeclare : Gives Graph.Grows (BuildM.extend fun g => g.declareMany stem count) w.graph
          fun hs g' => ∀ h ∈ hs, g'.Live h :=
        BuildM.extend_gives (declareFrom_grows w.graph stem 1 count)
          fun h hh => (hfresh.isVariable h hh).live
      have hanswer : Gives Graph.Grows
          (do return Answer.handles (← BuildM.extend fun g => g.declareMany stem count)) w.graph
          fun answer g' => ∀ h ∈ answer.toList, g'.Live h :=
        .bind hdeclare fun _ _ _ hlive => .pure hlive
      exact DiffM.onGraph_gives hanswer
  | literal v => exact hone (DiffM.onGraph_gives (BuildM.literal_gives hgraph v))
  | operation op args => exact hone (DiffM.onGraph_gives (BuildM.operation_gives hgraph op args))
  | powLiteral a exponent =>
      exact hone (DiffM.onGraph_gives (BuildM.powLiteral_gives hgraph a exponent))
  | square a => exact hone (DiffM.onGraph_gives (BuildM.operation_gives hgraph .mul [a, a]))
  | scale factor a => exact hone (DiffM.onGraph_gives (BuildM.scale_gives hgraph factor a))
  | sum terms => exact hone (DiffM.onGraph_gives (BuildM.sum_gives hgraph terms))
  | product factors => exact hone (DiffM.onGraph_gives (BuildM.product_gives hgraph factors))
  | dot left right => exact hone (DiffM.onGraph_gives (BuildM.dot_gives hgraph left right))
  | derivative node var => exact hone (DiffM.derivative_gives hw node var)
  | derivativeWrt node vars => exact hone (DiffM.derivativeWrt_gives hw node vars)
  | gradient node vars =>
      exact .bind (DiffM.gradient_gives hw node vars) fun _ _ _ hlive => .pure hlive
  | jacobian outputs vars columns =>
      exact .bind (DiffM.jacobian_gives hw outputs vars columns) fun _ _ _ hlive => .pure hlive
  | hessian node vars =>
      exact .bind (DiffM.hessian_gives hw node vars) fun _ _ _ hlive => .pure hlive
  | sparseJacobian outputs vars =>
      refine .bind (DiffM.sparseJacobian_gives hw outputs vars) fun m w' _ hlive => .pure ?_
      intro h hh
      obtain ⟨entry, hentry, rfl⟩ := List.mem_map.mp hh
      exact hlive entry hentry
  | jacobianTimes outputs vars =>
      exact .bind (DiffM.jacobianTimes_gives hw outputs vars) fun _ _ _ hlive => .pure hlive
  | transposeTimes outputs vars =>
      exact .bind (DiffM.transposeTimes_gives hw outputs vars) fun _ _ _ hlive => .pure hlive
  | hessianTimes node vars =>
      refine .bind (.bind (DiffM.gradient_gives hw node vars) fun slopes _ hadv _ =>
        DiffM.jacobianTimes_gives (hadv hw).ready slopes vars) fun _ _ _ hlive => .pure hlive

end ExprGraph
