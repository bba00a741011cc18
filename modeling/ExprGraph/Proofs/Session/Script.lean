import Mathlib
import ExprGraph.Session.Script
import ExprGraph.Proofs.Graph.Parallel
import ExprGraph.Proofs.Session.WellFormed

/-!
# A cleared graph is as good as a new one

A script shows the same on a graph that has been cleared as on one that has just begun, up to a
renaming of the handles.  The slots of a cleared graph are handed out in another order, so the same
step may store the operands of a commutative operator the other way round; nothing else is
different.  Each step keeps the correspondence of the two graphs, and so does a whole script.
-/

namespace ExprGraph

open ExprGraph.Graph

variable {φ : Handle → Handle}

/-- Answers with corresponding handles. -/
def Answer.Correspond (φ : Handle → Handle) (answer answer' : Answer) (g : Graph) : Prop :=
  NamesAll φ answer.toList answer'.toList g

/-- Results that correspond, given by their numbers. -/
theorem map_result (numbers : List Nat) {result result' : Nat → Handle}
    (hresult : ∀ number ∈ numbers, result' number = φ (result number)) :
    numbers.map result' = (numbers.map result).map φ := by
  rw [List.map_map]
  exact List.map_congr_left hresult

/-- A step of a script, with corresponding results as operands, is the same work on two
corresponding graphs. -/
theorem ScriptStep.exists_work (step : ScriptStep) {g g' : Graph} (hφ : g.Relocation φ g')
    {result result' : Nat → Handle} (hlive : ∀ number ∈ step.uses, g.Live (result number))
    (hresult : ∀ number ∈ step.uses, result' number = φ (result number)) :
    ∃ work work' : BuildM Answer, (step.call result).run = DiffM.onGraph work ∧
      (step.call result').run = DiffM.onGraph work' ∧
      BuildM.Parallel φ (Answer.Correspond φ) g g' work work' := by
  have hnamed : ∀ {work work' : BuildM Handle}, BuildM.Parallel φ (Names φ) g g' work work' →
      BuildM.Parallel φ (Answer.Correspond φ) g g' (do return .handle (← work))
        (do return .handle (← work')) :=
    fun hwork => hwork.bind fun _ hφ' hnames =>
      .pure hφ' ⟨List.forall_mem_singleton.mpr hnames.1, congrArg ([·]) hnames.2⟩
  have hone : ∀ {work work' : BuildM Handle}, BuildM.Parallel φ (Names φ) g g' work work' →
      ∃ named named' : BuildM Answer,
        (do return .handle (← DiffM.onGraph work)) = DiffM.onGraph named ∧
        (do return .handle (← DiffM.onGraph work')) = DiffM.onGraph named' ∧
        BuildM.Parallel φ (Answer.Correspond φ) g g' named named' :=
    fun hwork => ⟨_, _, DiffM.onGraph_map _ _, DiffM.onGraph_map _ _, hnamed hwork⟩
  cases step with
  | declare name => exact ⟨_, _, rfl, rfl, hnamed (BuildM.declare_parallel hφ name)⟩
  | declareMany stem count =>
      refine ⟨_, _, rfl, rfl, (BuildM.declareMany_parallel hφ stem count).bind
        fun _ hφ' hnames => .pure hφ' ?_⟩
      exact hnames
  | literal v => exact hone (BuildM.literal_parallel hφ v)
  | operation op args =>
      rw [call, call, map_result args hresult]
      exact hone (BuildM.operation_parallel hφ op (List.forall_mem_map.mpr hlive))
  | powLiteral a exponent =>
      have ha := List.mem_singleton_self a
      rw [call, call, hresult a ha]
      exact hone (BuildM.powLiteral_parallel hφ (hlive a ha) exponent)
  | square a =>
      have ha := List.mem_singleton_self a
      rw [call, call, hresult a ha]
      exact hone (BuildM.operation_parallel hφ .mul (live_pair (hlive a ha) (hlive a ha)))
  | scale factor a =>
      have ha := List.mem_singleton_self a
      rw [call, call, hresult a ha]
      exact hone (BuildM.scale_parallel hφ factor (hlive a ha))
  | sum terms =>
      rw [call, call, map_result terms hresult]
      exact hone (BuildM.sum_parallel hφ (List.forall_mem_map.mpr hlive))
  | product factors =>
      rw [call, call, map_result factors hresult]
      exact hone (BuildM.product_parallel hφ (List.forall_mem_map.mpr hlive))
  | dot left right =>
      obtain ⟨hleft, hright⟩ := List.forall_mem_append.mp hlive
      obtain ⟨hleft', hright'⟩ := List.forall_mem_append.mp hresult
      rw [call, call, map_result left hleft', map_result right hright']
      exact hone (BuildM.dot_parallel hφ (List.forall_mem_map.mpr hleft)
        (List.forall_mem_map.mpr hright))

namespace Session

variable {s : Session} {graph : Nat} {g g' : Graph} {call : Call} {work : BuildM Answer}

theorem step_call_of_ok (hg : s.graph? graph = some g) (hcall : call.run = DiffM.onGraph work)
    {answer : Answer} (hrun : work g = .ok answer g') :
    ∃ after, s.step (.call graph none call) = (.ok answer, after) ∧
      after.graph? graph = some g' := by
  have hanswered : call.run ⟨g, s.memoFor none⟩ = .ok answer ⟨g', s.memoFor none⟩ := by
    rw [hcall]
    exact DiffM.onGraph_of_ok hrun
  refine ⟨_, Prod.ext (by simp only [step, hg, hanswered]) rfl, ?_⟩
  rw [graph?_step_call hg, endState_of_ok hanswered]

theorem step_call_of_error (hg : s.graph? graph = some g) (hcall : call.run = DiffM.onGraph work)
    {e : Failure} (hrun : work g = .error e g') :
    ∃ after, s.step (.call graph none call) = (.error e, after) ∧
      after.graph? graph = some g' := by
  have hfailed : call.run ⟨g, s.memoFor none⟩ = .error e ⟨g', s.memoFor none⟩ := by
    rw [hcall]
    exact DiffM.onGraph_of_error hrun
  refine ⟨_, Prod.ext (by simp only [step, hg, hfailed]) rfl, ?_⟩
  rw [graph?_step_call hg, endState_of_error hfailed]

end Session

/-- The outcome with other names for the nodes. -/
def ScriptOutcome.rename (φ : Handle → Handle) (outcome : ScriptOutcome) : ScriptOutcome :=
  { outcome with answer := outcome.answer.map (List.map φ) }

theorem ScriptOutcome.results_rename (φ : Handle → Handle) (outcome : ScriptOutcome) :
    (outcome.rename φ).results = outcome.results.map φ := by
  obtain ⟨answer, size⟩ := outcome
  cases answer <;> rfl

namespace ScriptRun

variable {graph graph' : Nat} {r r' : ScriptRun} {g g' h h' : Graph}

@[simp] theorem results_record (graph : Nat) (r : ScriptRun) (answer : Except Failure Answer)
    (session : Session) : (r.record graph answer session).results =
      r.results ++ ScriptOutcome.results
        ⟨answer.map Answer.toList, (session.graph? graph).map Graph.size⟩ := by
  simp [record, results]

/-- Two runs of a script that have shown the same so far, on graphs that correspond. -/
structure Alongside (φ : Handle → Handle) (graph graph' : Nat) (r r' : ScriptRun) (g g' : Graph) :
    Prop where
  graph : r.session.graph? graph = some g
  graph' : r'.session.graph? graph' = some g'
  relocation : g.Relocation φ g'
  outcomes : r'.outcomes = r.outcomes.map (ScriptOutcome.rename φ)
  live : ∀ a ∈ r.results, g.Live a

namespace Alongside

theorem results_eq (hr : Alongside φ graph graph' r r' g g') :
    r'.results = r.results.map φ := by
  rw [results, results, hr.outcomes, List.flatMap_map, List.map_flatMap]
  exact congrArg (List.flatMap · r.outcomes) (funext (ScriptOutcome.results_rename φ))

theorem record (hr : Alongside φ graph graph' r r' g g') {session session' : Session}
    {answer answer' : Except Failure Answer} (hgraph : session.graph? graph = some h)
    (hgraph' : session'.graph? graph' = some h') (hext : g.Extends h) (hφ : h.Relocation φ h')
    (hanswer : answer'.map Answer.toList = (answer.map Answer.toList).map (List.map φ))
    (hlive : ∀ given, answer = .ok given → ∀ a ∈ given.toList, h.Live a) :
    Alongside φ graph graph' (r.record graph answer session) (r'.record graph' answer' session')
      h h' where
  graph := hgraph
  graph' := hgraph'
  relocation := hφ
  outcomes := by
    simp only [ScriptRun.record, hr.outcomes, hgraph, hgraph', hanswer, Option.map_some,
      hφ.size_eq, List.map_append, List.map_cons, List.map_nil, ScriptOutcome.rename]
  live := by
    rw [results_record]
    refine List.forall_mem_append.mpr ⟨hext.live_all hr.live, ?_⟩
    cases answer with
    | ok given => exact hlive given rfl
    | error e => exact fun a ha => absurd ha List.not_mem_nil

/-- A step of the script. -/
theorem step (hr : Alongside φ graph graph' r r' g g') (step : ScriptStep) :
    ∃ h h', Alongside φ graph graph' (r.step graph step) (r'.step graph' step) h h' := by
  have hlength : r'.results.length = r.results.length := by rw [hr.results_eq, List.length_map]
  by_cases husable : ∀ number ∈ step.uses, number < r.results.length
  · have husable' : ∀ number ∈ step.uses, number < r'.results.length := by
      rwa [hlength]
    have hlive : ∀ number ∈ step.uses, g.Live (r.results.getD number default) := by
      intro number hnumber
      rw [List.getD_eq_getElem _ _ (husable number hnumber)]
      exact hr.live _ (List.getElem_mem _)
    have hresult : ∀ number ∈ step.uses,
        r'.results.getD number default = φ (r.results.getD number default) := by
      intro number hnumber
      rw [List.getD_eq_getElem _ _ (husable number hnumber),
        List.getD_eq_getElem _ _ (husable' number hnumber)]
      simp only [hr.results_eq, List.getElem_map]
    obtain ⟨work, work', hcall, hcall', hwork⟩ := step.exists_work hr.relocation hlive hresult
    rw [ScriptRun.step, if_pos husable, ScriptRun.step, if_pos husable']
    cases hwork with
    | ok hrun hrun' hext hφ hanswer =>
        obtain ⟨after, hstep, hgraph⟩ := Session.step_call_of_ok hr.graph hcall hrun
        obtain ⟨after', hstep', hgraph'⟩ := Session.step_call_of_ok hr.graph' hcall' hrun'
        rw [hstep, hstep']
        refine ⟨_, _, hr.record hgraph hgraph' hext hφ (congrArg Except.ok hanswer.2) ?_⟩
        rintro _ ⟨⟩
        exact hanswer.1
    | error hrun hrun' hext hφ =>
        obtain ⟨after, hstep, hgraph⟩ := Session.step_call_of_error hr.graph hcall hrun
        obtain ⟨after', hstep', hgraph'⟩ := Session.step_call_of_error hr.graph' hcall' hrun'
        rw [hstep, hstep']
        exact ⟨_, _, hr.record hgraph hgraph' hext hφ rfl nofun⟩
  · have husable' : ¬∀ number ∈ step.uses, number < r'.results.length := by
      rwa [hlength]
    rw [ScriptRun.step, if_neg husable, ScriptRun.step, if_neg husable']
    exact ⟨g, g', hr.record hr.graph hr.graph' (.refl g) hr.relocation rfl nofun⟩

/-- A whole script, by induction on its steps. -/
theorem run (hr : Alongside φ graph graph' r r' g g') (script : List ScriptStep) :
    ∃ h h', Alongside φ graph graph' (script.foldl (ScriptRun.step graph) r)
      (script.foldl (ScriptRun.step graph') r') h h' := by
  induction script generalizing r r' g g' with
  | nil => exact ⟨g, g', hr⟩
  | cons step rest ih =>
      obtain ⟨h, h', hnext⟩ := hr.step step
      exact ih hnext

end Alongside

/-- Two runs of a script that have shown the same, up to the names of the nodes. -/
structure SameUpTo (φ : Handle → Handle) (graph graph' : Nat) (r r' : ScriptRun) : Prop where
  /-- Every step has given corresponding handles or failed with the same error, and has left as many
  nodes. -/
  outcomes : r'.outcomes = r.outcomes.map (ScriptOutcome.rename φ)
  /-- The results name nodes, and the nodes correspond one to one. -/
  graphs : ∃ g g', r.session.graph? graph = some g ∧ r'.session.graph? graph' = some g' ∧
    g.Isomorphic φ g' ∧ ∀ a ∈ r.results, g.Live a
  /-- Results are one node in both runs or in neither. -/
  shared {i j : Nat} : i < r.results.length → j < r.results.length →
    (r'.results[i]? = r'.results[j]? ↔ r.results[i]? = r.results[j]?)

theorem Alongside.sameUpTo (hr : Alongside φ graph graph' r r' g g') :
    SameUpTo φ graph graph' r r' where
  outcomes := hr.outcomes
  graphs := ⟨g, g', hr.graph, hr.graph', hr.relocation.isomorphic, hr.live⟩
  shared {i j} hi hj := by
    rw [hr.results_eq, List.getElem?_map, List.getElem?_map, List.getElem?_eq_getElem hi,
      List.getElem?_eq_getElem hj, Option.map_some, Option.map_some, Option.some_inj,
      Option.some_inj]
    exact hr.relocation.eq_iff (hr.live _ (List.getElem_mem hi)) (hr.live _ (List.getElem_mem hj))

end ScriptRun

namespace Session

/-- The cleared graph and the new one, before anything is built. -/
theorem alongside_clear {s : Session} {graph : Nat} {g : Graph} (hg : s.graph? graph = some g)
    (t : Session) :
    ∃ φ g₀ g₀', ScriptRun.Alongside φ graph t.graphs.size { session := (s.step (.clear graph)).2 }
      { session := (t.step (.newGraph g.folds)).2 } g₀ g₀' := by
  obtain ⟨own, hown, rfl⟩ := graph?_eq_some_iff.mp hg
  have hcleared : (s.graphs.modify graph Graph.clear)[graph]? = some own.clear := by
    rw [Array.getElem?_modify, if_pos rfl, hown]
    rfl
  have hnew : (t.graphs.push (Graph.empty t.nextGraph own.folds))[t.graphs.size]? =
      some (Graph.empty t.nextGraph own.folds) := Array.getElem?_push_size
  exact ⟨_, _, _, graph?_eq_some_iff.mpr ⟨_, hcleared, rfl⟩, graph?_eq_some_iff.mpr ⟨_, hnew, rfl⟩,
    .of_nodes_eq ((wellFormed_clear own).withNextVariable _)
      ((wellFormed_empty _ _).withNextVariable _) rfl rfl rfl, rfl, nofun⟩

/-- A script shows the same on a graph that has been cleared as on a new graph of any session that
folds alike. -/
theorem cleared_same_as_new {s : Session} {graph : Nat} {g : Graph} (hg : s.graph? graph = some g)
    (t : Session) (script : List ScriptStep) :
    ∃ φ, ScriptRun.SameUpTo φ graph t.graphs.size
      ((s.step (.clear graph)).2.runScript graph script)
      ((t.step (.newGraph g.folds)).2.runScript t.graphs.size script) := by
  obtain ⟨φ, g₀, g₀', hstart⟩ := alongside_clear hg t
  obtain ⟨h, h', hend⟩ := hstart.run script
  exact ⟨φ, hend.sameUpTo⟩

/-- In the graph that has been cleared the second variable gets the lower slot, so the operands of
the sum are stored the other way round. -/
theorem cleared_same_as_new_square : square.graph? 0 = some squareGraph ∧
    ∃ φ, ScriptRun.SameUpTo φ 0 0
      ((square.step (.clear 0)).2.runScript 0
        [.declare "x", .declare "y", .operation .add [0, 1], .operation .add [1, 0]])
      ((start.step (.newGraph false)).2.runScript 0
        [.declare "x", .declare "y", .operation .add [0, 1], .operation .add [1, 0]]) :=
  ⟨graph?_square, cleared_same_as_new graph?_square start _⟩

/-- Slots are handed out from the highest down after a clear.  A step that fails leaves the nodes as
they are. -/
example : ((start.run [.newGraph true, .call 0 none (.declareMany "x" 2), .clear 0]).runScript 0
    [.declare "x", .declare "y", .operation .add [0]]).outcomes =
    [⟨.ok [⟨1, 1, 1⟩], some 1⟩, ⟨.ok [⟨0, 1, 1⟩], some 2⟩,
      ⟨.error (.refused (.arityMismatch .add 1)), some 2⟩] :=
  rfl

end Session

end ExprGraph
