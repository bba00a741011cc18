import Mathlib
import ExprGraph.Proofs.Program.Chunk

/-!
# Acceptance

A graph is compiled exactly when the containers fit, the inputs are different variables, the outputs
are nodes of the graph and every variable below them is an input.  Otherwise the answer is the error
of the first of these conditions that is not met, at the first place where it is not met.  Once the
checks have passed no table of the compiler misses an entry, since every node of an order comes
after its operands.
-/

namespace ExprGraph

/-- Either a condition holds of a list, or there is a place up to which it holds. -/
theorem holds_or_exists_first {α : Type} {P : List α → Prop} (hnil : P []) (as : List α) :
    P as ∨ ∃ before a after, as = before ++ a :: after ∧ P before ∧ ¬ P (before ++ [a]) := by
  induction as using List.reverseRecOn with
  | nil => exact .inl hnil
  | append_singleton as a ih =>
      rcases ih with hall | ⟨before, b, after, rfl, hbefore, hb⟩
      · by_cases hlast : P (as ++ [a])
        · exact .inl hlast
        · exact .inr ⟨as, a, [], rfl, hall, hlast⟩
      · exact .inr ⟨before, b, after ++ [a], by simp, hbefore, hb⟩

/-- The containers hold as many inputs as there are, and outputs of the shape. -/
structure ContainersFit (input : InputKind) (output : OutputKind) (inputs : Nat) (shape : Shape) :
    Prop where
  length {fixed : Nat} : input.length? = some fixed → fixed = inputs
  accepts : output.accepts shape = true

/-- The instruction computes a node: it reads the input at the place of a variable, the literal, or
as many slots as the operator has operands. -/
inductive Instruction.Computes (inputs : List Handle) (h : Handle) : Node → Instruction → Prop
  | input {id : Nat} {name : String} {dst position : Nat}
      (hposition : inputs.idxOf? h = some position) :
      Computes inputs h (.var id name) (.input dst position)
  | literal {v : Float} {dst : Nat} : Computes inputs h (.lit v) (.literal dst v)
  | application {app : Application} {dst : Nat} {sources : List Nat} {i : Instruction}
      (hlength : sources.length = app.args.length)
      (hi : Instruction.ofApplication? app.op dst sources = some i) :
      Computes inputs h (.app app) i

namespace Graph

/-- The handles are those of different variables. -/
structure DistinctVariables (g : Graph) (inputs : List Handle) : Prop where
  isVariable : ∀ h ∈ inputs, g.IsVariable h
  nodup : inputs.Nodup

/-- What is wrong with a handle as an input after given ones. -/
inductive InputError (g : Graph) (before : List Handle) (h : Handle) : GraphError → Prop
  | unusable {e : GraphError} (he : g.node h = .error e) : InputError g before h e
  | notVariable (hlive : g.Live h) (hvar : ¬ g.IsVariable h) :
      InputError g before h (.invalidInput before.length .notVariable)
  | repeated (hvar : g.IsVariable h) (hbefore : h ∈ before) :
      InputError g before h (.invalidInput before.length .repeated)

/-- What a compilation asks of its arguments. -/
structure Compilable (g : Graph) (input : InputKind) (output : OutputKind) (outputs : Outputs)
    (inputs : List Handle) : Prop where
  containers : ContainersFit input output inputs.length outputs.shape
  distinct : g.DistinctVariables inputs
  live : ∀ h ∈ outputs.nodes, g.Live h
  /-- What no output lies above is not asked for. -/
  covered : ∀ h, g.IsVariable h → (∃ root ∈ outputs.nodes, g.Reaches root h) → h ∈ inputs

/-- The error of the first condition that is not met. -/
inductive CompileError (g : Graph) (input : InputKind) (output : OutputKind) (outputs : Outputs)
    (inputs : List Handle) : GraphError → Prop
  | length {fixed : Nat} (hfixed : input.length? = some fixed) (hne : fixed ≠ inputs.length) :
      CompileError g input output outputs inputs
        (.shapeMismatch (.vector inputs.length) (.vector fixed))
  | shape (hlength : ∀ fixed, input.length? = some fixed → fixed = inputs.length)
      (hshape : output.accepts outputs.shape = false) :
      CompileError g input output outputs inputs
        (.shapeMismatch outputs.shape (output.shape?.getD outputs.shape))
  | input {before after : List Handle} {h : Handle} {e : GraphError}
      (hcontainers : ContainersFit input output inputs.length outputs.shape)
      (hsplit : inputs = before ++ h :: after) (hbefore : g.DistinctVariables before)
      (herror : g.InputError before h e) : CompileError g input output outputs inputs e
  | output {before after : List Handle} {h : Handle} {e : GraphError}
      (hcontainers : ContainersFit input output inputs.length outputs.shape)
      (hinputs : g.DistinctVariables inputs)
      (hsplit : outputs.nodes = before ++ h :: after) (hbefore : ∀ b ∈ before, g.Live b)
      (he : g.node h = .error e) : CompileError g input output outputs inputs e
  | missing {before after : List Handle} {h : Handle} {id : Nat} {name : String}
      (hcontainers : ContainersFit input output inputs.length outputs.shape)
      (hinputs : g.DistinctVariables inputs) (houtputs : ∀ h ∈ outputs.nodes, g.Live h)
      (hsplit : g.postorder outputs.nodes = before ++ h :: after)
      (hbefore : ∀ b ∈ before, g.IsVariable b → b ∈ inputs)
      (hn : g.node h = .ok (.var id name)) (hmissing : h ∉ inputs) :
      CompileError g input output outputs inputs (.missingInput name id)

end Graph

/-! ### The checks -/

section Checks

variable {g : Graph} {input : InputKind} {output : OutputKind} {count : Nat} {shape : Shape}

theorem ContainersFit.check (hfit : ContainersFit input output count shape) :
    checkContainers input output count shape = .ok () := by
  unfold checkContainers checkContainers.checkOutput
  rw [if_pos hfit.accepts]
  split
  · next fixed hfixed => rw [if_neg (not_not.mpr (hfit.length hfixed))]
  · rfl

theorem checkContainers_of_length_ne {fixed : Nat} (hfixed : input.length? = some fixed)
    (hne : fixed ≠ count) :
    checkContainers input output count shape =
      .error (.shapeMismatch (.vector count) (.vector fixed)) := by
  rw [checkContainers, hfixed]
  exact if_pos hne

theorem checkContainers_of_not_accepts
    (hlength : ∀ fixed, input.length? = some fixed → fixed = count)
    (hshape : output.accepts shape = false) :
    checkContainers input output count shape =
      .error (.shapeMismatch shape (output.shape?.getD shape)) := by
  unfold checkContainers checkContainers.checkOutput
  rw [if_neg (by rw [hshape]; exact Bool.false_ne_true)]
  split
  · next fixed hfixed => rw [if_neg (not_not.mpr (hlength fixed hfixed))]
  · rfl

namespace Graph

/-- Inputs that are different variables pass, and are known from then on. -/
theorem indexInputs_append {before : List Handle} (hbefore : g.DistinctVariables before)
    (rest : List Handle) (position : Nat) (positions : Std.HashMap Handle Nat)
    (hnew : ∀ h ∈ before, h ∉ positions) :
    ∃ found, g.indexInputs position (before ++ rest) positions =
        g.indexInputs (position + before.length) rest found ∧
      ∀ h, h ∈ found ↔ h ∈ positions ∨ h ∈ before := by
  obtain ⟨hvars, hnodup⟩ := hbefore
  induction before generalizing position positions with
  | nil => exact ⟨positions, rfl, by simp⟩
  | cons b before ih =>
      obtain ⟨⟨id, name, hn⟩, hvars⟩ := List.forall_mem_cons.mp hvars
      obtain ⟨hfresh, hnew⟩ := List.forall_mem_cons.mp hnew
      obtain ⟨hnot, hnodup⟩ := List.nodup_cons.mp hnodup
      have hinsert : ∀ h ∈ before, h ∉ positions.insert b position := by
        intro h hh
        rw [Std.HashMap.mem_insert, beq_iff_eq]
        rintro (rfl | hold)
        · exact hnot hh
        · exact hnew h hh hold
      obtain ⟨found, hindex, hfound⟩ := ih (position + 1) _ hinsert hvars hnodup
      refine ⟨found, ?_, fun h => ?_⟩
      · have hcontains : positions.contains b = false := by
          rwa [Bool.eq_false_iff, ne_eq, Std.HashMap.contains_iff_mem]
        rw [List.cons_append, indexInputs, hn, List.length_cons, Nat.add_comm before.length,
          ← Nat.add_assoc]
        simpa [Node.isVariable, hcontains, bind, Except.bind] using hindex
      · rw [hfound, Std.HashMap.mem_insert, beq_iff_eq, List.mem_cons, eq_comm]
        tauto

theorem DistinctVariables.exists_indexInputs {inputs : List Handle}
    (hinputs : g.DistinctVariables inputs) :
    ∃ positions, g.indexInputs 0 inputs {} = .ok positions ∧ ∀ h, h ∈ positions ↔ h ∈ inputs := by
  obtain ⟨positions, hindex, hpositions⟩ :=
    indexInputs_append hinputs [] 0 {} (by simp)
  rw [List.append_nil] at hindex
  exact ⟨positions, hindex, fun h => by simp [hpositions]⟩

/-- The error of the inputs is that of the first one that is no other variable. -/
theorem InputError.indexInputs {before after : List Handle} {h : Handle} {e : GraphError}
    (herror : g.InputError before h e) (hbefore : g.DistinctVariables before) :
    g.indexInputs 0 (before ++ h :: after) {} = .error e := by
  obtain ⟨found, hindex, hfound⟩ :=
    indexInputs_append hbefore (h :: after) 0 {} (by simp)
  rw [hindex, Nat.zero_add, Graph.indexInputs]
  cases herror with
  | unusable he => rw [he]; rfl
  | notVariable hlive hvar =>
      obtain ⟨n, hn⟩ := hlive
      have hother : n.isVariable = false := by
        cases n with
        | var id name => exact absurd ⟨id, name, hn⟩ hvar
        | lit => rfl
        | app => rfl
      simp [hn, hother, bind, Except.bind]
  | repeated hvar hmem =>
      obtain ⟨id, name, hn⟩ := hvar
      have hcontains : found.contains h = true :=
        Std.HashMap.contains_iff_mem.mpr ((hfound h).mpr (.inr hmem))
      simp [hn, Node.isVariable, hcontains, bind, Except.bind]

theorem exists_noteUses {order : List Handle} (hlive : ∀ h ∈ order, g.Live h) (index : Nat)
    (noted : Std.HashMap Handle Lifetime) : ∃ found, g.noteUses index order noted = .ok found := by
  induction order generalizing index noted with
  | nil => exact ⟨noted, rfl⟩
  | cons h rest ih =>
      obtain ⟨hh, hrest⟩ := List.forall_mem_cons.mp hlive
      rw [noteUses, operands_of_live hh]
      exact ih hrest _ _

theorem exists_lifetimes {order : List Handle} (hlive : ∀ h ∈ order, g.Live h)
    (outputs : List Handle) : ∃ lifetimes, g.lifetimes order outputs = .ok lifetimes := by
  obtain ⟨noted, hnoted⟩ := exists_noteUses hlive 0 {}
  exact ⟨_, by rw [lifetimes, hnoted]; rfl⟩

end Graph

end Checks

/-! ### Emission -/

theorem Instruction.exists_ofApplication? {op : Op} (dst : Nat) {sources : List Nat}
    (harity : sources.length = op.arity) : ∃ i, ofApplication? op dst sources = some i := by
  rcases op.arity_cases with hone | htwo | rfl
  · obtain ⟨a, rfl⟩ := List.length_eq_one_iff.mp (harity.trans hone)
    exact ⟨_, rfl⟩
  · obtain ⟨a, b, rfl⟩ := List.length_eq_two.mp (harity.trans htwo)
    exact ⟨_, rfl⟩
  · obtain ⟨c, a, b, rfl⟩ := List.length_eq_three.mp harity
    exact ⟨_, rfl⟩

namespace Emission

variable {g : Graph} {positions : Std.HashMap Handle Nat}
  {lifetimes : Std.HashMap Handle Lifetime} {index : Nat} {e : Emission}

theorem exists_slots (hs : List Handle) (hplaced : ∀ h ∈ hs, h ∈ e.slotOf) :
    ∃ slots, e.slots hs = .ok slots ∧ slots.length = hs.length := by
  induction hs with
  | nil => exact ⟨[], rfl, rfl⟩
  | cons h rest ih =>
      obtain ⟨hh, hrest⟩ := List.forall_mem_cons.mp hplaced
      obtain ⟨slots, hslots, hlength⟩ := ih hrest
      refine ⟨e.slotOf[h] :: slots, ?_, congrArg (· + 1) hlength⟩
      rw [Emission.slots, Std.HashMap.getElem?_eq_some_getElem hh, hslots]
      rfl

/-- A node whose operands have slots gets an instruction, if it is no variable that is missing. -/
theorem exists_step (hg : g.WellFormed) (lifetimes : Std.HashMap Handle Lifetime) (index : Nat)
    {node : Handle} (hlive : g.Live node) (hplaced : ∀ a ∈ g.argsOf node, a ∈ e.slotOf)
    (hvar : g.IsVariable node → node ∈ positions) :
    ∃ e', step g positions lifetimes index e node = .ok e' := by
  obtain ⟨n, hn⟩ := hlive
  rw [Graph.argsOf_of_node hn] at hplaced
  rw [step, hn]
  cases n with
  | var id name =>
      have hmem := hvar ⟨id, name, hn⟩
      simp [liftError, bind, Except.bind, pure, Except.pure,
        Std.HashMap.getElem?_eq_some_getElem hmem]
  | lit v => exact ⟨_, rfl⟩
  | app app =>
      obtain ⟨sources, hsources, hlength⟩ := exists_slots _ hplaced
      obtain ⟨released, hreleased, -⟩ := exists_slots (dying lifetimes index app.args)
        fun a ha => hplaced a (mem_dying.mp ha).1
      obtain ⟨i, hi⟩ := Instruction.exists_ofApplication?
        (e.pool.releaseAll released).take.1 (hlength.trans (hg.arity hn))
      rw [Node.args] at hsources
      simp [liftError, liftFault, bind, Except.bind, pure, Except.pure, hsources, hreleased, hi]

theorem mem_slotOf_of_step {node h : Handle} {e' : Emission}
    (hstep : step g positions lifetimes index e node = .ok e') :
    h ∈ e'.slotOf ↔ h = node ∨ h ∈ e.slotOf := by
  obtain ⟨n, released, i, -, -, -, -, rfl⟩ := step_eq_ok hstep
  rw [emit, Std.HashMap.mem_insert, beq_iff_eq, eq_comm]

/-- What comes before the first variable that is missing is emitted, and has slots from then on. -/
theorem exists_run (hg : g.WellFormed) (lifetimes : Std.HashMap Handle Lifetime) (index : Nat)
    (e : Emission) (before order rest : List Handle)
    (horder : g.OperandsFirst (fun _ => false) (before ++ order ++ rest))
    (hlive : ∀ h ∈ order, g.Live h) (hvars : ∀ h ∈ order, g.IsVariable h → h ∈ positions)
    (hplaced : ∀ h ∈ before, h ∈ e.slotOf) :
    ∃ e', run g positions lifetimes index (order ++ rest) e =
        run g positions lifetimes (index + order.length) rest e' ∧
      ∀ h ∈ before ++ order, h ∈ e'.slotOf := by
  induction order generalizing before index e with
  | nil => exact ⟨e, rfl, by simpa using hplaced⟩
  | cons node order ih =>
      obtain ⟨hnode, hlive⟩ := List.forall_mem_cons.mp hlive
      obtain ⟨hvar, hvars⟩ := List.forall_mem_cons.mp hvars
      have hargs : ∀ a ∈ g.argsOf node, a ∈ e.slotOf := by
        intro a ha
        have hbefore := horder before node (order ++ rest) (by simp) a ha
        exact hplaced a (hbefore.resolve_left Bool.false_ne_true)
      obtain ⟨e₁, hstep⟩ := exists_step hg lifetimes index hnode hargs hvar
      have hsplit : before ++ node :: order = (before ++ [node]) ++ order := by simp
      rw [hsplit] at horder
      have hplaced' : ∀ h ∈ before ++ [node], h ∈ e₁.slotOf := by
        intro h hh
        rw [mem_slotOf_of_step hstep]
        rcases List.mem_append.mp hh with hold | hself
        · exact .inr (hplaced h hold)
        · exact .inl (List.mem_singleton.mp hself)
      obtain ⟨e', hrun, hall⟩ := ih (index + 1) e₁ (before ++ [node]) horder hlive hvars hplaced'
      refine ⟨e', ?_, by rwa [hsplit]⟩
      rw [List.cons_append, run, hstep, List.length_cons, Nat.add_comm order.length,
        ← Nat.add_assoc]
      exact hrun

/-- A variable that is missing ends the emission. -/
theorem step_of_missing {node : Handle} {id : Nat} {name : String}
    (hn : g.node node = .ok (.var id name)) (hmissing : node ∉ positions) :
    step g positions lifetimes index e node = .error (.refused (.missingInput name id)) := by
  simp [step, hn, liftError, bind, Except.bind, Std.HashMap.getElem?_eq_none hmissing]

/-- An emission makes one instruction for every node of its order. -/
theorem computes_of_run {inputs order : List Handle} {final : Emission}
    (hpositions : ∀ h, positions[h]? = inputs.idxOf? h)
    (hrun : run g positions lifetimes index order e = .ok final) :
    ∃ is, final.emitted = is.reverse ++ e.emitted ∧
      List.Forall₂ (fun h i => ∃ n, g.node h = .ok n ∧ i.Computes inputs h n) order is := by
  induction order generalizing index e with
  | nil =>
      cases hrun
      exact ⟨[], rfl, .nil⟩
  | cons node order ih =>
      rw [run] at hrun
      obtain ⟨e₁, hstep, hrun⟩ := exists_of_bind_eq_ok hrun
      obtain ⟨n, released, i, hn, -, -, hrenders, rfl⟩ := step_eq_ok hstep
      obtain ⟨is, hemitted, hcomputes⟩ := ih hrun
      refine ⟨i :: is, ?_, .cons ⟨n, hn, ?_⟩ hcomputes⟩
      · rw [hemitted, emit, List.reverse_cons, List.append_assoc]
        rfl
      · cases hrenders with
        | input hposition => exact .input ((hpositions node).symm.trans hposition)
        | literal => exact .literal
        | application hsources hi => exact .application hsources.length_eq.symm hi

end Emission

/-! ### Compilation -/

namespace Graph

variable {g : Graph} {input : InputKind} {output : OutputKind} {outputs : Outputs}
  {inputs : List Handle} {reuse : Bool}

/-- What is left of a compilation once inputs and outputs have passed. -/
theorem WellFormed.compile_of_checked (hg : g.WellFormed) (hinputs : g.DistinctVariables inputs)
    (houtputs : ∀ h ∈ outputs.nodes, g.Live h) (reuse : Bool) :
    ∃ positions lifetimes, (∀ h, h ∈ positions ↔ h ∈ inputs) ∧
      g.compile outputs inputs reuse = do
        let e ← Emission.run g positions lifetimes 0 (g.postorder outputs.nodes)
          { pool := { reuse } }
        let slots ← liftFault (e.slots outputs.nodes)
        return ⟨e.emitted.reverse, slots, e.pool.count, inputs.length, outputs.shape⟩ := by
  obtain ⟨positions, hindex, hpositions⟩ := hinputs.exists_indexInputs
  obtain ⟨horder, hisOrder⟩ := hg.order_eq_postorder houtputs
  obtain ⟨lifetimes, hlifetimes⟩ :=
    exists_lifetimes (fun h hh => hisOrder.live hh) outputs.nodes
  refine ⟨positions, lifetimes, hpositions, ?_⟩
  simp [compile, hindex, horder, hlifetimes, liftError, bind, Except.bind]

theorem Compilable.exists_evaluator (hg : g.WellFormed)
    (hcompilable : g.Compilable input output outputs inputs) (reuse : Bool) :
    ∃ ev, g.evaluator input output outputs inputs reuse = .ok ev := by
  obtain ⟨hcontainers, hdistinct, hlive, hcovered⟩ := hcompilable
  obtain ⟨positions, lifetimes, hpositions, hcompile⟩ :=
    hg.compile_of_checked hdistinct hlive reuse
  obtain ⟨-, horder⟩ := hg.order_eq_postorder hlive
  have hvars : ∀ h ∈ g.postorder outputs.nodes, g.IsVariable h → h ∈ positions := by
    intro h hh hvar
    exact (hpositions h).mpr (hcovered h hvar (horder.reached hh))
  obtain ⟨e, hrun, hplaced⟩ := Emission.exists_run hg lifetimes 0 { pool := { reuse } } []
    (g.postorder outputs.nodes) [] (by simpa using horder.operandsFirst)
    (fun h hh => horder.live hh) hvars (by simp)
  obtain ⟨slots, hslots, -⟩ := Emission.exists_slots _ fun h hh => hplaced h (horder.mem hh)
  rw [List.append_nil, Emission.run] at hrun
  rw [evaluator, hcontainers.check, hcompile, hrun]
  refine ⟨⟨⟨e.emitted.reverse, slots, e.pool.count, inputs.length, outputs.shape⟩, output⟩, ?_⟩
  simp [liftError, liftFault, bind, Except.bind, pure, Except.pure, hslots]

/-- A handle is refused as foreign or as stale. -/
theorem error_of_node {h : Handle} {e : GraphError} (he : g.node h = .error e) :
    e = .foreignNode ∨ e = .staleNode h.epoch g.epoch := by
  unfold node at he
  split at he
  · exact .inl (Except.error.inj he).symm
  · split at he
    · exact .inr (Except.error.inj he).symm
    · split at he
      · cases he
      · exact .inr (Except.error.inj he).symm

theorem CompileError.ne_arityMismatch {e : GraphError}
    (herror : g.CompileError input output outputs inputs e) (op : Op) (got : Nat) :
    e ≠ .arityMismatch op got := by
  rintro rfl
  cases herror with
  | input _ _ _ herror =>
      cases herror with
      | unusable he => simpa using error_of_node he
  | output _ _ _ _ he => simpa using error_of_node he

theorem live_of_order {roots order : List Handle} (horder : g.order roots = .ok order) :
    ∀ root ∈ roots, g.Live root := by
  obtain ⟨_, hvalid, -⟩ := exists_of_bind_eq_ok horder
  exact validate_eq_ok_iff.mp (eq_ok_of_liftError hvalid)

theorem CompileError.evaluator (hg : g.WellFormed) {e : GraphError}
    (herror : g.CompileError input output outputs inputs e) :
    g.evaluator input output outputs inputs reuse = .error (.refused e) := by
  cases herror with
  | length hfixed hne => rw [Graph.evaluator, checkContainers_of_length_ne hfixed hne]; rfl
  | shape hlength hshape =>
      rw [Graph.evaluator, checkContainers_of_not_accepts hlength hshape]; rfl
  | input hcontainers hsplit hbefore herror =>
      rw [Graph.evaluator, hcontainers.check, compile, hsplit, herror.indexInputs hbefore]
      rfl
  | output hcontainers hinputs hsplit hbefore he =>
      obtain ⟨positions, hindex, -⟩ := hinputs.exists_indexInputs
      rw [Graph.evaluator, hcontainers.check, compile, hindex, order, hsplit,
        validate_of_split hbefore he]
      rfl
  | @missing before after h id name hcontainers hinputs houtputs hsplit hbefore hn hmissing =>
      obtain ⟨positions, lifetimes, hpositions, hcompile⟩ :=
        hg.compile_of_checked hinputs houtputs reuse
      obtain ⟨-, horder⟩ := hg.order_eq_postorder houtputs
      rw [hsplit] at hcompile horder
      obtain ⟨e, hrun, -⟩ := Emission.exists_run hg lifetimes 0 { pool := { reuse } } [] before
        (h :: after) (by simpa using horder.operandsFirst)
        (fun b hb => horder.live (List.mem_append_left _ hb))
        (fun b hb hvar => (hpositions b).mpr (hbefore b hb hvar)) (by simp)
      rw [Graph.evaluator, hcontainers.check, hcompile, hrun, Emission.run,
        Emission.step_of_missing hn (mt (hpositions h).mp hmissing)]
      rfl

theorem distinctVariables_or_inputError (g : Graph) (inputs : List Handle) :
    g.DistinctVariables inputs ∨ ∃ before h after e, inputs = before ++ h :: after ∧
      g.DistinctVariables before ∧ g.InputError before h e := by
  have hnone : g.DistinctVariables [] := ⟨by simp, List.nodup_nil⟩
  refine (holds_or_exists_first hnone inputs).imp_right ?_
  rintro ⟨before, h, after, hsplit, hbefore, hfirst⟩
  suffices herror : ∃ e, g.InputError before h e by
    obtain ⟨e, herror⟩ := herror
    exact ⟨before, h, after, e, hsplit, hbefore, herror⟩
  cases hn : g.node h with
  | error e => exact ⟨e, .unusable hn⟩
  | ok n =>
      by_cases hvar : g.IsVariable h
      · refine ⟨_, .repeated hvar (by_contra fun hnew => hfirst ⟨?_, ?_⟩)⟩
        · exact List.forall_mem_append.mpr ⟨hbefore.isVariable, by simpa using hvar⟩
        · rw [← List.concat_eq_append]
          exact hbefore.nodup.concat hnew
      · exact ⟨_, .notVariable ⟨n, hn⟩ hvar⟩

theorem live_or_unusable (g : Graph) (hs : List Handle) :
    (∀ h ∈ hs, g.Live h) ∨ ∃ before h after e, hs = before ++ h :: after ∧
      (∀ b ∈ before, g.Live b) ∧ g.node h = .error e := by
  refine (holds_or_exists_first (P := fun hs => ∀ h ∈ hs, g.Live h) (by simp) hs).imp_right ?_
  rintro ⟨before, h, after, hsplit, hbefore, hfirst⟩
  cases hn : g.node h with
  | error e => exact ⟨before, h, after, e, hsplit, hbefore, hn⟩
  | ok n =>
      refine absurd (List.forall_mem_append.mpr ⟨hbefore, ?_⟩) hfirst
      exact List.forall_mem_singleton.mpr ⟨n, hn⟩

theorem covered_or_missing (g : Graph) (inputs order : List Handle) :
    (∀ h ∈ order, g.IsVariable h → h ∈ inputs) ∨
      ∃ before h after id name, order = before ++ h :: after ∧
        (∀ b ∈ before, g.IsVariable b → b ∈ inputs) ∧ g.node h = .ok (.var id name) ∧
        h ∉ inputs := by
  refine (holds_or_exists_first (P := fun hs => ∀ h ∈ hs, g.IsVariable h → h ∈ inputs) (by simp)
    order).imp_right ?_
  rintro ⟨before, h, after, hsplit, hbefore, hfirst⟩
  have hboth : g.IsVariable h ∧ h ∉ inputs := by
    by_contra hnot
    refine hfirst (List.forall_mem_append.mpr ⟨hbefore, ?_⟩)
    exact List.forall_mem_singleton.mpr fun hvar => by_contra fun hmem => hnot ⟨hvar, hmem⟩
  obtain ⟨⟨id, name, hn⟩, hmissing⟩ := hboth
  exact ⟨before, h, after, id, name, hsplit, hbefore, hn, hmissing⟩

/-- Unless all conditions are met, one of them is the first one that is not. -/
theorem WellFormed.compilable_or_error (hg : g.WellFormed) (input : InputKind)
    (output : OutputKind) (outputs : Outputs) (inputs : List Handle) :
    g.Compilable input output outputs inputs ∨
      ∃ e, g.CompileError input output outputs inputs e := by
  by_cases hlength : ∀ fixed, input.length? = some fixed → fixed = inputs.length
  swap
  · push Not at hlength
    obtain ⟨fixed, hfixed, hne⟩ := hlength
    exact .inr ⟨_, .length hfixed hne⟩
  by_cases hshape : output.accepts outputs.shape = true
  swap
  · exact .inr ⟨_, .shape hlength (Bool.eq_false_iff.mpr hshape)⟩
  have hcontainers : ContainersFit input output inputs.length outputs.shape :=
    ⟨fun hfixed => hlength _ hfixed, hshape⟩
  rcases g.distinctVariables_or_inputError inputs with
    hinputs | ⟨before, h, after, e, hsplit, hbefore, herror⟩
  swap
  · exact .inr ⟨e, .input hcontainers hsplit hbefore herror⟩
  rcases g.live_or_unusable outputs.nodes with
    houtputs | ⟨before, h, after, e, hsplit, hbefore, he⟩
  swap
  · exact .inr ⟨e, .output hcontainers hinputs hsplit hbefore he⟩
  rcases g.covered_or_missing inputs (g.postorder outputs.nodes) with
    hcovered | ⟨before, h, after, id, name, hsplit, hbefore, hn, hmissing⟩
  swap
  · exact .inr ⟨_, .missing hcontainers hinputs houtputs hsplit hbefore hn hmissing⟩
  obtain ⟨-, horder⟩ := hg.order_eq_postorder houtputs
  exact .inl ⟨hcontainers, hinputs, houtputs, fun h hvar hreach =>
    hcovered h (horder.mem_iff.mpr hreach) hvar⟩

theorem WellFormed.compilable_of_evaluator (hg : g.WellFormed) {ev : Evaluator}
    (hev : g.evaluator input output outputs inputs reuse = .ok ev) :
    g.Compilable input output outputs inputs := by
  refine (hg.compilable_or_error input output outputs inputs).resolve_right ?_
  rintro ⟨e, herror⟩
  cases (herror.evaluator hg).symm.trans hev

end Graph

/-- The contract of compilation, for all containers and all handles.  It succeeds exactly when its
arguments are as they should be; otherwise it answers with the error of the first condition that is
not met, which is never one about the number of operands, and there is never a fault.  A program has
one instruction for every node that is reached from the outputs, in their post-order. -/
theorem Session.Reachable.compiles_iff {s : Session} (hs : s.Reachable) {graph : Nat} {g : Graph}
    (hg : s.graph? graph = some g) (input : InputKind) (output : OutputKind) (outputs : Outputs)
    (inputs : List Handle) (reuse : Bool) :
    ((∃ ev, g.evaluator input output outputs inputs reuse = .ok ev) ↔
      g.Compilable input output outputs inputs) ∧
    (∀ failure, g.evaluator input output outputs inputs reuse = .error failure ↔
      ∃ e, failure = .refused e ∧ g.CompileError input output outputs inputs e) ∧
    (∀ op got, ¬ g.CompileError input output outputs inputs (.arityMismatch op got)) ∧
    ∀ ev, g.evaluator input output outputs inputs reuse = .ok ev →
      (g.postorder outputs.nodes).Nodup ∧
      (∀ h, h ∈ g.postorder outputs.nodes ↔ ∃ root ∈ outputs.nodes, g.Reaches root h) ∧
      List.Forall₂ (fun h i => ∃ n, g.node h = .ok n ∧ i.Computes inputs h n)
        (g.postorder outputs.nodes) ev.program.instructions := by
  have hwf := hs.wellFormed.graph hg
  refine ⟨⟨fun ⟨ev, hev⟩ => hwf.compilable_of_evaluator hev,
    fun hcompilable => hcompilable.exists_evaluator hwf reuse⟩, fun failure => ⟨?_, ?_⟩, ?_, ?_⟩
  · intro hfailure
    rcases hwf.compilable_or_error input output outputs inputs with hcompilable | ⟨e, herror⟩
    · obtain ⟨ev, hev⟩ := hcompilable.exists_evaluator hwf reuse
      cases hev.symm.trans hfailure
    · exact ⟨e, Except.error.inj (hfailure.symm.trans (herror.evaluator hwf)), herror⟩
  · rintro ⟨e, rfl, herror⟩
    exact herror.evaluator hwf
  · exact fun op got herror => herror.ne_arityMismatch op got rfl
  · intro ev hev
    obtain ⟨positions, order, lifetimes, e, hindex, horder, -, hrun, -, hinstructions, -⟩ :=
      Graph.compile_eq_ok (Graph.compile_of_evaluator hev)
    have hlive := Graph.live_of_order horder
    obtain ⟨hsame, hisOrder⟩ := hwf.order_eq_postorder hlive
    obtain rfl := Except.ok.inj (horder.symm.trans hsame)
    have hpositions : ∀ h, positions[h]? = inputs.idxOf? h := fun h => by
      simp [Graph.indexInputs_getElem? hindex]
    obtain ⟨is, hemitted, hcomputes⟩ := Emission.computes_of_run hpositions hrun
    refine ⟨hisOrder.nodup, fun h => hisOrder.mem_iff, ?_⟩
    rw [hinstructions, hemitted, List.append_nil, List.reverse_reverse]
    exact hcomputes

/-- Without its input the square is not compiled. -/
theorem compile_square_missing :
    Session.squareGraph.compile (.ofList [⟨1, 0, 1⟩]) [] true =
      .error (.refused (.missingInput "x" 1)) := by
  simp [Graph.compile, Graph.indexInputs, Session.squareGraph, Session.oneVariableGraph,
    Graph.node, Graph.placeOf, recycle, bind, Except.bind, pure, Except.pure, liftError,
    Graph.order, Graph.validate, Outputs.ofList, Graph.orderSkipping, Graph.walkSteps, Graph.size,
    Graph.walkFrom, Graph.operands, Node.args, Graph.lifetimes, Graph.noteUses, Emission.run,
    Emission.step]

/-- The square of a variable is compiled with the variable as input, and not without it. -/
theorem compiles_iff_square :
    Session.square.Reachable ∧ Session.square.graph? 0 = some Session.squareGraph ∧
    Session.squareGraph.Compilable .open .flat (.ofList [⟨1, 0, 1⟩]) [⟨0, 0, 1⟩] ∧
    Session.squareGraph.CompileError .open .flat (.ofList [⟨1, 0, 1⟩]) []
      (.missingInput "x" 1) := by
  have hcontract := Session.reachable_square.compiles_iff Session.graph?_square .open .flat
    (.ofList [⟨1, 0, 1⟩])
  refine ⟨Session.reachable_square, Session.graph?_square, ?_, ?_⟩
  · refine (hcontract [⟨0, 0, 1⟩] true).1.mp
      ⟨⟨⟨[.input 0 0, .binary .mul 0 0 0], [0], 1, 1, .vector 1⟩, .flat⟩, ?_⟩
    rw [Graph.evaluator, compile_square]
    rfl
  · have hrefused : Session.squareGraph.evaluator .open .flat (.ofList [⟨1, 0, 1⟩]) [] true =
        .error (.refused (.missingInput "x" 1)) := by
      rw [Graph.evaluator, compile_square_missing]
      rfl
    obtain ⟨e, hfailure, herror⟩ := ((hcontract [] true).2.1 _).mp hrefused
    cases hfailure
    exact herror

end ExprGraph
