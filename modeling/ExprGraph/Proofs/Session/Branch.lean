import Mathlib
import ExprGraph.Proofs.Derivative.Branch
import ExprGraph.Proofs.Program.Acceptance
import ExprGraph.Proofs.Session.Independence
import ExprGraph.Proofs.Session.Rebuilding

/-!
# Derivatives of guarded expressions

Compiled and run in double precision, the derivative of a choice gives the number that the
derivative of the selected branch gives, as long as the derivative of the other branch gives a
finite number.  An infinity or `nan` there is not kept out: it is multiplied by zero, and the sum is
`nan`.
-/

namespace ExprGraph

open ExprGraph.Graph

namespace Graph

variable {g : Graph} {inputs : List Handle} {reuse : Bool} {p : Program} {h : Handle}

/-- What is compiled from some inputs draws on nothing else. -/
theorem WellFormed.drawsOn_of_compile (hg : g.WellFormed)
    (hcompile : g.compile (.ofHandle h) inputs reuse = .ok p) :
    g.DistinctVariables inputs ∧ g.DrawsOn {x | x ∈ inputs} h := by
  have hfit : ContainersFit .open .flat inputs.length (Outputs.ofHandle h).shape := ⟨nofun, rfl⟩
  have hev : g.evaluator .open .flat (.ofHandle h) inputs reuse = .ok ⟨p, .flat⟩ := by
    rw [evaluator, hfit.check, hcompile]
    rfl
  have hcompilable := hg.compilable_of_evaluator hev
  exact ⟨hcompilable.distinct, hcompilable.live h List.mem_cons_self, fun hvar hreach =>
    hcompilable.covered _ hvar ⟨h, List.mem_cons_self, hreach⟩⟩

/-- A node is compiled from any different variables that cover what it draws on. -/
theorem WellFormed.exists_compile_of_draws (hg : g.WellFormed)
    (hinputs : g.DistinctVariables inputs) (hdraws : g.DrawsOn {x | x ∈ inputs} h) (reuse : Bool) :
    ∃ p, g.compile (.ofHandle h) inputs reuse = .ok p := by
  have hcompilable : g.Compilable .open .flat (.ofHandle h) inputs :=
    { containers := ⟨nofun, rfl⟩
      distinct := hinputs
      live := List.forall_mem_singleton.mpr hdraws.live
      covered := by
        rintro x hvar ⟨root, hroot, hreach⟩
        obtain rfl := List.mem_singleton.mp hroot
        exact hdraws.mem hvar hreach }
  obtain ⟨ev, hev⟩ := hcompilable.exists_evaluator hg reuse
  exact ⟨_, compile_of_evaluator hev⟩

/-- A program of one node gives the value of that node. -/
theorem WellFormed.hasValue_of_compile (hg : g.WellFormed)
    (hcompile : g.compile (.ofHandle h) inputs reuse = .ok p) {values : Array Float}
    (hvalues : values.size = inputs.length) :
    ∃ v, g.HasValue (inputValue? inputs values) h v ∧
      p.run (.ofScalar Float) values = .ok [v] := by
  obtain ⟨_, _, _, _, -, -, -, -, -, -, -, hcount⟩ := compile_eq_ok hcompile
  obtain ⟨results, hresults, hrun⟩ :=
    hg.run_of_compile hcompile (.ofScalar Float) (hvalues.trans hcount.symm)
  have hlive := (hg.drawsOn_of_compile hcompile).2.live
  obtain ⟨v, hv, rfl⟩ : ∃ v, g.value? (.ofScalar Float) (inputValue? inputs values) h = some v ∧
      [v] = results := by
    simpa [Outputs.ofHandle, Outputs.ofList, Option.bind_eq_some_iff] using hresults
  exact ⟨v, ⟨hlive, hv⟩, hrun⟩

end Graph

namespace Session

variable {s : Session} {graph : Nat} {g : Graph}

/-- The derivative of a choice and those of its branches, whatever has been called before.  They are
compiled from the inputs that the choice is compiled from.  At every input vector the derivative of
the choice follows that of the branch which the condition selects. -/
theorem Reachable.derivative_follows_branch (hs : s.Reachable) (hg : s.graph? graph = some g)
    {memo : Option Nat} (hmemo : memo = none ∨ s.ReachableInRange) {node var c a b : Handle}
    (hn : g.node node = .ok (.app ⟨.ifElse, [c, a, b]⟩)) (hvar : g.IsVariable var) :
    ∃ d da db w, DiffM.derivative node var ⟨g, s.memoFor memo⟩ = .ok d w ∧
      DiffM.derivative a var w = .ok da w ∧ DiffM.derivative b var w = .ok db w ∧
      ∀ inputs reuse,
        ((∃ p, g.compile (.ofHandle node) inputs reuse = .ok p) →
          ∀ h ∈ [c, d, da, db], ∃ p, w.graph.compile (.ofHandle h) inputs reuse = .ok p) ∧
        ∀ pc pd pa pb, w.graph.compile (.ofHandle c) inputs reuse = .ok pc →
          w.graph.compile (.ofHandle d) inputs reuse = .ok pd →
          w.graph.compile (.ofHandle da) inputs reuse = .ok pa →
          w.graph.compile (.ofHandle db) inputs reuse = .ok pb →
          ∀ values : Array Float, values.size = inputs.length →
            ∃ vc vd va vb, pc.run (.ofScalar Float) values = .ok [vc] ∧
              pd.run (.ofScalar Float) values = .ok [vd] ∧
              pa.run (.ofScalar Float) values = .ok [va] ∧
              pb.run (.ofScalar Float) values = .ok [vb] ∧
              Follows (Scalar.choose vc va vb) (Scalar.choose vc vb va) vd := by
  have hw : Workspace.Trusted ⟨g, s.memoFor memo⟩ := hs.trusted hg hmemo
  obtain ⟨d, da, db, w, hd, hda, hdb, hw', hgrows, hfollows⟩ :=
    DiffM.derivative_of_choice hw (hs.normal.graph hg) hn hvar
  refine ⟨d, da, db, w, hd, hda, hdb, fun inputs reuse => ⟨?_, ?_⟩⟩
  · rintro ⟨p, hcompile⟩
    obtain ⟨hinputs, hdraws⟩ := hw.ready.graph.drawsOn_of_compile hcompile
    have hvar' := hgrows.extends.isVariable hvar
    have hinputs' : w.graph.DistinctVariables inputs :=
      ⟨fun x hx => hgrows.extends.isVariable (hinputs.isVariable x hx), hinputs.nodup⟩
    have hoperand : ∀ h ∈ [c, a, b], w.graph.DrawsOn {x | x ∈ inputs} h := fun h hh =>
      (hdraws.operand hw.ready.graph (argsOf_of_node hn ▸ hh)).grows hw.ready.graph hgrows
    have hall : ∀ h ∈ [c, d, da, db], w.graph.DrawsOn {x | x ∈ inputs} h := by
      simp only [List.forall_mem_cons]
      exact ⟨hoperand c (by simp), DiffM.derivative_draws hw hvar hdraws hd,
        DiffM.derivative_draws hw' hvar' (hoperand a (by simp)) hda,
        DiffM.derivative_draws hw' hvar' (hoperand b (by simp)) hdb, nofun⟩
    exact fun h hh => hw'.ready.graph.exists_compile_of_draws hinputs' (hall h hh) reuse
  · intro pc pd pa pb hpc hpd hpa hpb values hvalues
    have hwf := hw'.ready.graph
    obtain ⟨vc, hc, hrunc⟩ := hwf.hasValue_of_compile hpc hvalues
    obtain ⟨vd, hvd, hrund⟩ := hwf.hasValue_of_compile hpd hvalues
    obtain ⟨va, ha, hruna⟩ := hwf.hasValue_of_compile hpa hvalues
    obtain ⟨vb, hb, hrunb⟩ := hwf.hasValue_of_compile hpb hvalues
    obtain ⟨vd', hvd', hfollowed⟩ := hfollows _ vc va vb hc ha hb
    obtain rfl : vd = vd' := Option.some.inj (hvd.eq.symm.trans hvd'.eq)
    exact ⟨vc, vd, va, vb, hrunc, hrund, hruna, hrunb, hfollowed⟩

end Session

namespace BuildM

variable {g : Graph} {node var : Handle}

theorem differentiateBelow_gives_one (hg : g.WellFormed) (hvar : g.IsVariable var) (depth : Nat) :
    Gives Grows (differentiateBelow var (depth + 1) var) g fun d g' =>
      g'.node d = .ok (.lit 1.0) := by
  obtain ⟨id, name, hn⟩ := hvar
  refine .bind_eq (inspect_eq hn) ?_
  dsimp only
  rw [if_pos rfl]
  exact literal_gives_node hg 1.0

/-- The partial of a logarithm is the reciprocal of its operand. -/
theorem lnPartial_gives (hg : g.WellFormed) (hvar : g.IsVariable var) (node : Handle) :
    Gives Grows ((Op.ln.partialBy 0).build node [var]) g fun p g' =>
      ∃ one, g'.node one = .ok (.lit 1.0) ∧ g'.node p = .ok (.app ⟨.div, [one, var]⟩) := by
  refine .bind (literal_gives_node hg 1.0) fun one g₁ hgrows₁ hone => ?_
  change Gives Grows (operation .div [one, var]) g₁ _
  have hopen := not_lit_of_isVariable (hgrows₁.extends.isVariable hvar)
  have hkeep : g₁.simplify .div [one, var] = .keep := by
    simp [simplify, isOne_of_not_lit hopen, isNegOne_of_not_lit hopen, isZero_of_one hone]
  exact (operation_gives_node (hg.grows hgrows₁) hkeep ⟨var, by simp, hopen⟩).weaken
    fun p g₂ hgrows₂ hp => ⟨one, hgrows₂.extends.node_eq hone, hp⟩

/-- One times an application is that application. -/
theorem operation_mul_one {p t : Handle} {app : Application} (hp : g.node p = .ok (.app app))
    (ht : g.node t = .ok (.lit 1.0)) : operation .mul [p, t] g = .ok p g := by
  have hopen := not_lit_of_app hp
  have hlive : ∀ h ∈ [p, t], g.Live h :=
    List.forall_mem_cons.mpr ⟨⟨_, hp⟩, List.forall_mem_singleton.mpr ⟨_, ht⟩⟩
  have hsame : g.build .mul [p, t] = (p, g) := by
    simp [build, simplify, isZero_of_not_lit hopen, isOne_of_not_lit hopen, isZero_of_one ht,
      isOne_iff.mpr ht]
  rw [operation_eq rfl hlive, hsame]

/-- With a tangent of one the derivative of an application with one operand is its partial. -/
theorem combine_gives_partial {app : Application} {t : Handle} {P : Handle → Graph → Prop}
    (ht : g.node t = .ok (.lit 1.0))
    (hpartial : Gives Grows ((app.op.partialBy 0).build node app.args) g fun p g' =>
      (∃ made, g'.node p = .ok (.app made)) ∧ P p g') :
    Gives Grows (combine node app 0 [t] none) g P := by
  rw [combine]
  refine .bind_eq (isZero_eq t g) ?_
  rw [isZero_of_one ht, if_neg (by decide)]
  refine .bind hpartial fun p g₁ hgrows₁ hmade => ?_
  obtain ⟨⟨made, hp⟩, hP⟩ := hmade
  refine .bind_eq (isZero_eq p g₁) ?_
  rw [isZero_of_not_lit (not_lit_of_app hp), if_neg (by decide)]
  exact .bind_eq (operation_mul_one hp (hgrows₁.extends.node_eq ht)) (.pure hP)

/-- The derivative of the logarithm of a variable is its reciprocal. -/
theorem differentiateBelow_gives_reciprocal (hg : g.WellFormed) (hvar : g.IsVariable var)
    (hn : g.node node = .ok (.app ⟨.ln, [var]⟩)) (depth : Nat) :
    Gives Grows (differentiateBelow var (depth + 2) node) g fun d g' =>
      ∃ one, g'.node one = .ok (.lit 1.0) ∧ g'.node d = .ok (.app ⟨.div, [one, var]⟩) := by
  refine .bind_eq (inspect_eq hn) ?_
  dsimp only
  rw [List.mapM_cons, bind_assoc]
  refine .bind (differentiateBelow_gives_one hg hvar depth) fun t g₂ hgrows₂ ht => ?_
  change Gives Grows (combine node ⟨.ln, [var]⟩ 0 [t] none) g₂ _
  refine combine_gives_partial ht ((lnPartial_gives (hg.grows hgrows₂)
    (hgrows₂.extends.isVariable hvar) node).weaken fun p g₃ _ hp => ⟨?_, hp⟩)
  obtain ⟨one, -, hmade⟩ := hp
  exact ⟨_, hmade⟩

end BuildM

namespace Session

/-- A session with a variable, its logarithm, and the logarithm guarded against a zero: there the
variable itself is selected. -/
def guarded : Session :=
  ((oneVariable.step (.call 0 none (.operation .ln [⟨0, 0, 1⟩]))).2.step
    (.call 0 none (.operation .ifElse [⟨0, 0, 1⟩, ⟨1, 0, 1⟩, ⟨0, 0, 1⟩]))).2

/-- Its graph before the guard. -/
def logarithmGraph : Graph :=
  { oneVariableGraph with
    nodes := #[.var 1 "x", .app ⟨.ln, [⟨0, 0, 1⟩]⟩]
    operations := Std.HashMap.insert {} ⟨.ln, [⟨0, 0, 1⟩]⟩ ⟨1, 0, 1⟩ }

/-- Its graph. -/
def guardedGraph : Graph :=
  { logarithmGraph with
    nodes := #[.var 1 "x", .app ⟨.ln, [⟨0, 0, 1⟩]⟩,
      .app ⟨.ifElse, [⟨0, 0, 1⟩, ⟨1, 0, 1⟩, ⟨0, 0, 1⟩]⟩]
    operations := logarithmGraph.operations.insert
      ⟨.ifElse, [⟨0, 0, 1⟩, ⟨1, 0, 1⟩, ⟨0, 0, 1⟩]⟩ ⟨2, 0, 1⟩ }

theorem graph?_guarded : guarded.graph? 0 = some guardedGraph := by
  have hvariable : oneVariable.graph? 0 = some oneVariableGraph := rfl
  have hlive : ∀ a ∈ ([⟨0, 0, 1⟩] : List Handle), oneVariableGraph.Live a :=
    List.forall_mem_singleton.mpr ⟨_, rfl⟩
  have hbuild : oneVariableGraph.build .ln [⟨0, 0, 1⟩] = (⟨1, 0, 1⟩, logarithmGraph) := by
    simp [oneVariableGraph, logarithmGraph, Graph.build, Graph.simplify, Graph.settle, Graph.share,
      Op.arrange, Graph.push, Graph.handleAt, recycle]
  have hlogarithm := graph?_step_operation hvariable none rfl hlive hbuild
  have hlive' : ∀ a ∈ ([⟨0, 0, 1⟩, ⟨1, 0, 1⟩, ⟨0, 0, 1⟩] : List Handle), logarithmGraph.Live a :=
    List.forall_mem_cons.mpr ⟨⟨_, rfl⟩, List.forall_mem_cons.mpr
      ⟨⟨_, rfl⟩, List.forall_mem_singleton.mpr ⟨_, rfl⟩⟩⟩
  have hbuild' : logarithmGraph.build .ifElse [⟨0, 0, 1⟩, ⟨1, 0, 1⟩, ⟨0, 0, 1⟩] =
      (⟨2, 0, 1⟩, guardedGraph) := by
    simp [oneVariableGraph, logarithmGraph, guardedGraph, Graph.build, Graph.simplify, Graph.node,
      Graph.placeOf, recycle, Graph.settle, Graph.share, Op.arrange, Graph.push, Graph.handleAt]
  exact graph?_step_operation hlogarithm none rfl hlive' hbuild'

theorem reachable_guarded : guarded.Reachable :=
  (Reachable.step ⟨_, rfl⟩ _).step _

theorem node_guardedGraph : guardedGraph.node ⟨2, 0, 1⟩ =
    .ok (.app ⟨.ifElse, [⟨0, 0, 1⟩, ⟨1, 0, 1⟩, ⟨0, 0, 1⟩]⟩) := rfl

theorem node_logarithm_guardedGraph :
    guardedGraph.node ⟨1, 0, 1⟩ = .ok (.app ⟨.ln, [⟨0, 0, 1⟩]⟩) := rfl

theorem isVariable_guardedGraph : guardedGraph.IsVariable ⟨0, 0, 1⟩ := ⟨1, "x", rfl⟩

theorem distinctVariables_guardedGraph : guardedGraph.DistinctVariables [⟨0, 0, 1⟩] :=
  ⟨List.forall_mem_singleton.mpr isVariable_guardedGraph, List.nodup_singleton _⟩

/-- The guarded logarithm draws on the variable alone. -/
theorem drawsOn_guardedGraph : guardedGraph.DrawsOn {x | x ∈ [⟨0, 0, 1⟩]} ⟨2, 0, 1⟩ := by
  have hvar : guardedGraph.DrawsOn {x | x ∈ [⟨0, 0, 1⟩]} ⟨0, 0, 1⟩ :=
    drawsOn_of_var isVariable_guardedGraph List.mem_cons_self
  have hlog : guardedGraph.DrawsOn {x | x ∈ [⟨0, 0, 1⟩]} ⟨1, 0, 1⟩ :=
    drawsOn_of_app node_logarithm_guardedGraph (List.forall_mem_singleton.mpr hvar)
  exact drawsOn_of_app node_guardedGraph (List.forall_mem_cons.mpr
    ⟨hvar, List.forall_mem_cons.mpr ⟨hlog, List.forall_mem_singleton.mpr hvar⟩⟩)

/-- At two the derivative of the guarded logarithm follows that of the logarithm. -/
theorem derivative_follows_branch_guarded :
    guarded.Reachable ∧ guarded.graph? 0 = some guardedGraph ∧
    guardedGraph.node ⟨2, 0, 1⟩ = .ok (.app ⟨.ifElse, [⟨0, 0, 1⟩, ⟨1, 0, 1⟩, ⟨0, 0, 1⟩]⟩) ∧
    guardedGraph.IsVariable ⟨0, 0, 1⟩ ∧
    ∃ d da db w pc pd pa pb,
      DiffM.derivative ⟨2, 0, 1⟩ ⟨0, 0, 1⟩ ⟨guardedGraph, guarded.memoFor none⟩ = .ok d w ∧
      DiffM.derivative ⟨1, 0, 1⟩ ⟨0, 0, 1⟩ w = .ok da w ∧
      DiffM.derivative ⟨0, 0, 1⟩ ⟨0, 0, 1⟩ w = .ok db w ∧
      w.graph.compile (.ofHandle ⟨0, 0, 1⟩) [⟨0, 0, 1⟩] true = .ok pc ∧
      w.graph.compile (.ofHandle d) [⟨0, 0, 1⟩] true = .ok pd ∧
      w.graph.compile (.ofHandle da) [⟨0, 0, 1⟩] true = .ok pa ∧
      w.graph.compile (.ofHandle db) [⟨0, 0, 1⟩] true = .ok pb ∧
      ∃ vc vd va vb, pc.run (.ofScalar Float) #[2.0] = .ok [vc] ∧
        pd.run (.ofScalar Float) #[2.0] = .ok [vd] ∧ pa.run (.ofScalar Float) #[2.0] = .ok [va] ∧
        pb.run (.ofScalar Float) #[2.0] = .ok [vb] ∧
        Follows (Scalar.choose vc va vb) (Scalar.choose vc vb va) vd := by
  obtain ⟨d, da, db, w, hd, hda, hdb, hcompiled⟩ := reachable_guarded.derivative_follows_branch
    graph?_guarded (.inl rfl) node_guardedGraph isVariable_guardedGraph
  obtain ⟨hall, hfollows⟩ := hcompiled [⟨0, 0, 1⟩] true
  have hwf := reachable_guarded.wellFormed.graph graph?_guarded
  have hprograms := hall
    (hwf.exists_compile_of_draws distinctVariables_guardedGraph drawsOn_guardedGraph true)
  obtain ⟨pc, hpc⟩ := hprograms ⟨0, 0, 1⟩ (by simp)
  obtain ⟨pd, hpd⟩ := hprograms d (by simp)
  obtain ⟨pa, hpa⟩ := hprograms da (by simp)
  obtain ⟨pb, hpb⟩ := hprograms db (by simp)
  exact ⟨reachable_guarded, graph?_guarded, node_guardedGraph, isVariable_guardedGraph,
    d, da, db, w, pc, pd, pa, pb, hd, hda, hdb, hpc, hpd, hpa, hpb,
    hfollows pc pd pa pb hpc hpd hpa hpb #[2.0] rfl⟩

/-- At zero the variable itself is selected, and its derivative is one.  But the derivative of the
logarithm is infinite there, and that of the guarded logarithm is `nan`. -/
theorem derivative_not_selected_guarded :
    guarded.Reachable ∧ guarded.graph? 0 = some guardedGraph ∧
    guardedGraph.node ⟨2, 0, 1⟩ = .ok (.app ⟨.ifElse, [⟨0, 0, 1⟩, ⟨1, 0, 1⟩, ⟨0, 0, 1⟩]⟩) ∧
    guardedGraph.IsVariable ⟨0, 0, 1⟩ ∧
    ∃ d db w pc pd pb,
      DiffM.derivative ⟨2, 0, 1⟩ ⟨0, 0, 1⟩ ⟨guardedGraph, guarded.memoFor none⟩ = .ok d w ∧
      DiffM.derivative ⟨0, 0, 1⟩ ⟨0, 0, 1⟩ w = .ok db w ∧
      w.graph.compile (.ofHandle ⟨0, 0, 1⟩) [⟨0, 0, 1⟩] true = .ok pc ∧
      w.graph.compile (.ofHandle d) [⟨0, 0, 1⟩] true = .ok pd ∧
      w.graph.compile (.ofHandle db) [⟨0, 0, 1⟩] true = .ok pb ∧
      pc.run (.ofScalar Float) #[0.0] = .ok [0.0] ∧ pb.run (.ofScalar Float) #[0.0] = .ok [1.0] ∧
      ∃ vd, pd.run (.ofScalar Float) #[0.0] = .ok [vd] ∧ vd.isNaN = true ∧ ¬ SameNumber vd 1.0 := by
  have hw : Workspace.Trusted ⟨guardedGraph, guarded.memoFor none⟩ :=
    reachable_guarded.trusted graph?_guarded (.inl rfl)
  obtain ⟨d, da, db, w, hd, hda, hdb, hw', hgrows, hfollows⟩ := DiffM.derivative_of_choice hw
    (reachable_guarded.normal.graph graph?_guarded) node_guardedGraph isVariable_guardedGraph
  have hwf := hw'.ready.graph
  have hvar := hgrows.extends.isVariable isVariable_guardedGraph
  have hlog := hgrows.extends.node_eq node_logarithm_guardedGraph
  have hdb' : w.graph.node db = .ok (.lit 1.0) :=
    (BuildM.differentiateBelow_gives_one hwf hvar _ _ _
      (DiffM.built_of_derivative hw' hvar.live hvar hdb (Nat.lt_succ_self _))).2
  obtain ⟨one, hone, hda'⟩ := (BuildM.differentiateBelow_gives_reciprocal hwf hvar hlog _ _ _
    (DiffM.built_of_derivative hw' ⟨_, hlog⟩ hvar hda (Nat.lt_add_of_pos_right Nat.two_pos))).2
  -- everything is compiled from the variable
  have hinputs : w.graph.DistinctVariables [⟨0, 0, 1⟩] :=
    ⟨List.forall_mem_singleton.mpr hvar, List.nodup_singleton _⟩
  have hdraws : w.graph.DrawsOn {x | x ∈ [⟨0, 0, 1⟩]} ⟨0, 0, 1⟩ :=
    drawsOn_of_var hvar List.mem_cons_self
  obtain ⟨pc, hpc⟩ := hwf.exists_compile_of_draws hinputs hdraws true
  obtain ⟨pd, hpd⟩ := hwf.exists_compile_of_draws hinputs
    (DiffM.derivative_draws hw isVariable_guardedGraph drawsOn_guardedGraph hd) true
  obtain ⟨pb, hpb⟩ := hwf.exists_compile_of_draws hinputs (drawsOn_of_lit hdb') true
  have hsize : (#[0.0] : Array Float).size = ([⟨0, 0, 1⟩] : List Handle).length := rfl
  obtain ⟨vc, hc, hrunc⟩ := hwf.hasValue_of_compile hpc hsize
  obtain ⟨vd, hvd, hrund⟩ := hwf.hasValue_of_compile hpd hsize
  obtain ⟨vb, hb, hrunb⟩ := hwf.hasValue_of_compile hpb hsize
  obtain rfl := hb.eq_of_lit hdb'
  obtain ⟨id, name, hn⟩ := hvar
  obtain rfl : (0.0 : Float) = vc := Option.some.inj ((value?_of_var hn).symm.trans hc.eq)
  have ha := hasValue_binary hwf hda' (hasValue_lit hone) hc
  obtain ⟨vd', hvd', hfollowed⟩ := hfollows _ _ _ _ hc ha hb
  obtain rfl : vd = vd' := Option.some.inj (hvd.eq.symm.trans hvd'.eq)
  have hnan : vd.isNaN = true := hfollowed.of_not_isFinite (by decide)
  exact ⟨reachable_guarded, graph?_guarded, node_guardedGraph, isVariable_guardedGraph,
    d, db, w, pc, pd, pb, hd, hdb, hpc, hpd, hpb, hrunc, hrunb, vd, hrund, hnan,
    fun hsame => absurd (hsame.isNaN hnan) (by decide)⟩

end Session

end ExprGraph
