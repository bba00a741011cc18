import Mathlib
import ExprGraph.Proofs.Program.Acceptance

/-!
# Reuse of slots

Between two steps of an emission with reuse, the free slots and the slots of the live values are the
slots handed out so far, each once.  So a fresh slot is taken only when all are in use, and the
slots of a program are as many as there are values live at once somewhere.  Without reuse every
value has a slot of its own.
-/

namespace ExprGraph

/-- The slots that the instructions of a program write, in order. -/
def Program.written (p : Program) : List Nat := p.instructions.map Instruction.dst

/-- The slot of a node, where `order` are the nodes that the instructions compute. -/
def Program.slotOf? (p : Program) (order : List Handle) (h : Handle) : Option Nat :=
  p.written[order.idxOf h]?

namespace SlotPool

theorem reuse_releaseAll (pool : SlotPool) (slots : List Nat) :
    (pool.releaseAll slots).reuse = pool.reuse := by
  induction slots generalizing pool with
  | nil => rfl
  | cons slot rest ih =>
      refine (ih (pool.release slot)).trans ?_
      unfold release
      split <;> rfl

theorem take_of_free_nil {pool : SlotPool} (hfree : pool.free = []) :
    pool.take = (pool.count, { pool with count := pool.count + 1 }) := by
  unfold take
  split
  · next hcons => cases hfree.symm.trans hcons
  · rfl

/-- A pool whose slots are all free or used once hands out a free one if there is one.  Afterwards
its slots are as many as were in use at once, the new one included. -/
theorem perm_take {pool : SlotPool} {used : List Nat}
    (hperm : (pool.free ++ used).Perm (List.range pool.count)) :
    (pool.take.2.free ++ (used ++ [pool.take.1])).Perm (List.range pool.take.2.count) ∧
      pool.take.2.count = max pool.count (used.length + 1) := by
  have hlength := hperm.length_eq
  rw [List.length_append, List.length_range] at hlength
  unfold take
  split
  · next slot rest hfree =>
    rw [hfree] at hperm hlength
    rw [List.length_cons] at hlength
    refine ⟨?_, by dsimp only; omega⟩
    rw [← List.append_assoc]
    exact (List.perm_append_singleton slot (rest ++ used)).trans hperm
  · next hfree =>
    rw [hfree] at hperm hlength
    rw [List.length_nil] at hlength
    refine ⟨?_, by dsimp only; omega⟩
    rw [hfree, List.range_succ]
    exact hperm.append_right [pool.count]

end SlotPool

/-! ### Live values -/

theorem not_mem_of_nodup {α : Type} {as before rest : List α} {a : α} (has : as.Nodup)
    (hsplit : as = before ++ a :: rest) : a ∉ before := fun hmem =>
  (List.nodup_append.mp (hsplit ▸ has)).2.2 a hmem a List.mem_cons_self rfl

namespace Graph

variable {g : Graph} {outputs order before rest : List Handle} {node : Handle}

theorem liveAfter_of_split :
    g.liveAfter (before ++ node :: rest) outputs before.length =
      (before ++ [node]).filter (g.neededAfter outputs rest) := by
  have hsplit : before ++ node :: rest = (before ++ [node]) ++ rest := by simp
  rw [liveAfter, hsplit, List.take_left' (by simp), List.drop_left' (by simp)]

/-- The greatest number of values that are live right after one of the first nodes of an order. -/
def peakUpTo (g : Graph) (order outputs : List Handle) (count : Nat) : Nat :=
  ((List.range count).map fun index => (g.liveAfter order outputs index).length).foldl max 0

theorem peakUpTo_succ (g : Graph) (order outputs : List Handle) (count : Nat) :
    g.peakUpTo order outputs (count + 1) =
      max (g.peakUpTo order outputs count) (g.liveAfter order outputs count).length := by
  simp [peakUpTo, List.range_succ]

/-- What lies below a node is the node or an operand of something below it. -/
theorem Reaches.eq_or_exists_user {h b : Handle} (hreach : g.Reaches h b) :
    h = b ∨ ∃ user, g.Reaches h user ∧ b ∈ g.argsOf user := by
  induction hreach with
  | refl => exact .inl rfl
  | @step h a b ha _ ih =>
      refine .inr ?_
      rcases ih with rfl | ⟨user, hreach, hb⟩
      · exact ⟨h, .refl h, ha⟩
      · exact ⟨user, .step ha hreach, hb⟩

/-- The value of a node of an order is needed: the node is an output or has a later user. -/
theorem IsOrder.neededAfter (horder : g.IsOrder (fun _ => false) outputs order)
    (hsplit : order = before ++ node :: rest) : g.neededAfter outputs rest node = true := by
  have hnew := not_mem_of_nodup horder.nodup hsplit
  have hnode : node ∈ order := hsplit ▸ List.mem_append_right _ List.mem_cons_self
  obtain ⟨root, hroot, hreach⟩ := horder.mem_iff.mp hnode
  simp only [Graph.neededAfter, Bool.or_eq_true, List.contains_iff_mem, List.any_eq_true]
  rcases hreach.eq_or_exists_user with rfl | ⟨user, huser, hmem⟩
  · exact .inl hroot
  · -- its operands come before the user, so the user does not come before the node
    refine .inr ⟨user, ?_, hmem⟩
    have hin := horder.mem_iff.mpr ⟨root, hroot, huser⟩
    rw [hsplit] at hin
    rcases List.mem_append.mp hin with hbefore | hafter
    · obtain ⟨first, last, rfl⟩ := List.append_of_mem hbefore
      have hearly := (horder.operandsFirst first user (last ++ node :: rest)
        (by rw [hsplit]; simp) node hmem).resolve_left Bool.false_ne_true
      exact absurd (List.mem_append_left _ hearly) hnew
    · rcases List.mem_cons.mp hafter with rfl | hafter
      · exact absurd ((horder.operandsFirst before user rest hsplit user hmem).resolve_left
          Bool.false_ne_true) hnew
      · exact hafter

end Graph

namespace Emission

variable {g : Graph} {positions : Std.HashMap Handle Nat}
  {lifetimes : Std.HashMap Handle Lifetime} {outputs order before rest : List Handle}
  {node : Handle} {e e' start final : Emission}

/-- The slot of a node that has been emitted. -/
def slotAt (e : Emission) (h : Handle) : Nat := (e.slotOf[h]?).getD 0

theorem eq_map_slotAt {hs : List Handle} {slots : List Nat} (hslots : e.slots hs = .ok slots) :
    slots = hs.map e.slotAt := by
  have hforall := slots_eq_ok_iff.mp hslots
  induction hforall with
  | nil => rfl
  | cons hslot hrest ih =>
      rw [List.map_cons, slotAt, hslot, Option.getD_some, ← ih (slots_eq_ok_iff.mpr hrest)]

theorem slotAt_emit_self {pool : SlotPool} {i : Instruction} :
    (e.emit node pool i).slotAt node = i.dst := by
  simp [slotAt, emit]

theorem slotAt_emit_of_ne {pool : SlotPool} {i : Instruction} {h : Handle} (hne : h ≠ node) :
    (e.emit node pool i).slotAt h = e.slotAt h := by
  simp [slotAt, emit, Std.HashMap.getElem?_insert, hne.symm]

theorem map_slotAt_emit {pool : SlotPool} {i : Instruction} {hs : List Handle}
    (hnew : node ∉ hs) : hs.map (e.emit node pool i).slotAt = hs.map e.slotAt :=
  List.map_congr_left fun _ hh => slotAt_emit_of_ne (ne_of_mem_of_not_mem hh hnew)

theorem run_append (index : Nat) (before rest : List Handle) (e : Emission) :
    run g positions lifetimes index (before ++ rest) e =
      run g positions lifetimes index before e >>=
        run g positions lifetimes (index + before.length) rest := by
  induction before generalizing index e with
  | nil => rfl
  | cons node before ih =>
      rw [List.cons_append, run, run]
      cases step g positions lifetimes index e node with
      | error failure => rfl
      | ok e' =>
          refine (ih (index + 1) e').trans ?_
          rw [List.length_cons, Nat.add_comm before.length, ← Nat.add_assoc]
          rfl

/-- An emission passes through a state after every beginning of its order.  What each step takes
from one such state to the next holds of all of them. -/
theorem run_split {motive : List Handle → List Handle → Emission → Prop}
    (hrun : run g positions lifetimes 0 order start = .ok final) (hstart : motive [] order start)
    (hstep : ∀ before node rest e e', order = before ++ node :: rest →
      motive before (node :: rest) e → step g positions lifetimes before.length e node = .ok e' →
      motive (before ++ [node]) rest e')
    (hsplit : order = before ++ rest) :
    ∃ mid, run g positions lifetimes 0 before start = .ok mid ∧ motive before rest mid ∧
      run g positions lifetimes before.length rest mid = .ok final := by
  induction before using List.reverseRecOn generalizing rest with
  | nil =>
      obtain rfl : order = rest := hsplit
      exact ⟨start, rfl, hstart, hrun⟩
  | append_singleton before node ih =>
      have hsplit' : order = before ++ node :: rest := by simpa using hsplit
      obtain ⟨mid, hbefore, hmotive, hrest⟩ := ih hsplit'
      rw [run] at hrest
      obtain ⟨next, hnext, hrest⟩ := exists_of_bind_eq_ok hrest
      refine ⟨next, ?_, hstep _ _ _ _ _ hsplit' hmotive hnext, ?_⟩
      · rw [run_append, hbefore, Nat.zero_add]
        change run g positions lifetimes before.length [node] mid = .ok next
        rw [run, hnext]
        rfl
      · rwa [List.length_append, List.length_singleton]

/-- The nodes emitted so far have the slots that their instructions write. -/
structure Recorded (before : List Handle) (e : Emission) : Prop where
  placed : ∀ h ∈ before, h ∈ e.slotOf
  written : before.map e.slotAt = e.emitted.reverse.map Instruction.dst

theorem Recorded.step (he : Recorded before e) (hnew : node ∉ before)
    (hstep : step g positions lifetimes before.length e node = .ok e') :
    Recorded (before ++ [node]) e' := by
  refine ⟨fun h hh => ?_, ?_⟩
  · rw [mem_slotOf_of_step hstep]
    rcases List.mem_append.mp hh with hold | hself
    · exact .inr (he.placed h hold)
    · exact .inl (List.mem_singleton.mp hself)
  · obtain ⟨n, released, i, -, -, -, -, rfl⟩ := step_eq_ok hstep
    rw [List.map_append, map_slotAt_emit hnew, he.written, List.map_singleton, slotAt_emit_self,
      emit, List.reverse_cons, List.map_append, List.map_singleton]

/-- What is written after a beginning of an order does not change the slots of the beginning. -/
theorem Recorded.slotOf?_eq {inputs : List Handle} {p : Program} (he : Recorded before e)
    (hsplit : order = before ++ rest) (hpositions : ∀ h, positions[h]? = inputs.idxOf? h)
    (hrest : run g positions lifetimes before.length rest e = .ok final)
    (hinstructions : p.instructions = final.emitted.reverse) {h : Handle} (hh : h ∈ before) :
    p.slotOf? order h = some (e.slotAt h) := by
  obtain ⟨is, hemitted, -⟩ := computes_of_run hpositions hrest
  have hwritten : p.written = before.map e.slotAt ++ is.map Instruction.dst := by
    rw [Program.written, hinstructions, hemitted, List.reverse_append, List.reverse_reverse,
      List.map_append, he.written]
  have hidx : before.idxOf h < before.length := List.idxOf_lt_length_of_mem hh
  rw [Program.slotOf?, hsplit, List.idxOf_append_of_mem hh, hwritten,
    List.getElem?_append_left (by rwa [List.length_map]), List.getElem?_map,
    List.getElem?_eq_getElem hidx, List.getElem_idxOf hidx, Option.map_some]

theorem slots_eq_map {hs : List Handle} (hplaced : ∀ h ∈ hs, h ∈ e.slotOf) :
    e.slots hs = .ok (hs.map e.slotAt) := by
  obtain ⟨slots, hslots, -⟩ := exists_slots hs hplaced
  rw [hslots, eq_map_slotAt hslots]

/-- Without reuse no slot is free, and every instruction writes the next one. -/
structure Fresh (before : List Handle) (e : Emission) : Prop where
  reuse : e.pool.reuse = false
  free : e.pool.free = []
  count : e.pool.count = before.length
  written : e.emitted.reverse.map Instruction.dst = List.range e.pool.count

theorem Fresh.step (he : Fresh before e)
    (hstep : step g positions lifetimes before.length e node = .ok e') :
    Fresh (before ++ [node]) e' := by
  obtain ⟨n, released, i, -, -, hdst, -, rfl⟩ := step_eq_ok hstep
  have hpool : (e.pool.releaseAll released).free = [] := by
    rw [SlotPool.free_releaseAll, he.reuse, if_neg Bool.false_ne_true, he.free]
  have hreuse : (e.pool.releaseAll released).reuse = false :=
    (SlotPool.reuse_releaseAll e.pool released).trans he.reuse
  have hcount := SlotPool.count_releaseAll e.pool released
  rw [SlotPool.take_of_free_nil hpool] at hdst ⊢
  refine ⟨hreuse, hpool, by simp [emit, hcount, he.count], ?_⟩
  simp only [emit, List.reverse_cons, List.map_append, List.map_singleton, he.written, hdst,
    hcount, List.range_succ]

/-- With reuse the free slots and the slots of the live values are those handed out, each once, and
as many have been handed out as there have been live values at once. -/
structure Partitioned (g : Graph) (outputs before rest : List Handle) (e : Emission) : Prop where
  reuse : e.pool.reuse = true
  perm : (e.pool.free ++ (before.filter (g.neededAfter outputs rest)).map e.slotAt).Perm
    (List.range e.pool.count)
  count : e.pool.count = g.peakUpTo (before ++ rest) outputs before.length

/-- What is needed before a step are the operands that die in it and what is needed after it. -/
theorem perm_dying (horder : g.IsOrder (fun _ => false) outputs order)
    (hsplit : order = before ++ node :: rest)
    (hlifetimes : g.lifetimes order outputs = .ok lifetimes) :
    (before.filter (g.neededAfter outputs (node :: rest))).Perm
      (dying lifetimes before.length (g.argsOf node) ++
        before.filter (g.neededAfter outputs rest)) := by
  subst hsplit
  have hbefore : before.Nodup := (List.nodup_append.mp horder.nodup).1
  have hlast : ∀ a ∈ g.argsOf node, (lifetimes[a]? = some (.upTo before.length) ↔
      g.neededAfter outputs rest a = false) := fun a ha =>
    Graph.lifetimes_eq_upTo_iff hlifetimes ha
  have hearly : ∀ a ∈ g.argsOf node, a ∈ before := fun a ha =>
    (horder.operandsFirst before node rest rfl a ha).resolve_left Bool.false_ne_true
  have hdisjoint : (dying lifetimes before.length (g.argsOf node) ++
      before.filter (g.neededAfter outputs rest)).Nodup := by
    refine List.nodup_append.mpr ⟨nodup_dying _ _ _, hbefore.filter _, ?_⟩
    rintro a hdying _ hkept rfl
    obtain ⟨ha, hnoted⟩ := mem_dying.mp hdying
    have hneeded := (List.mem_filter.mp hkept).2
    rw [(hlast a ha).mp hnoted] at hneeded
    cases hneeded
  refine (List.perm_ext_iff_of_nodup (hbefore.filter _) hdisjoint).mpr fun a => ?_
  rw [List.mem_append, List.mem_filter, List.mem_filter, mem_dying, Graph.neededAfter_cons]
  constructor
  · rintro ⟨hmem, ha | hneeded⟩
    · by_cases hlater : g.neededAfter outputs rest a = true
      · exact .inr ⟨hmem, hlater⟩
      · exact .inl ⟨ha, (hlast a ha).mpr (Bool.eq_false_iff.mpr hlater)⟩
    · exact .inr ⟨hmem, hneeded⟩
  · rintro (⟨ha, -⟩ | ⟨hmem, hneeded⟩)
    · exact ⟨hearly a ha, .inl ha⟩
    · exact ⟨hmem, .inr hneeded⟩

/-- The slots that a step releases were in use, and after their release they are free, each once. -/
theorem Partitioned.release (he : Partitioned g outputs before (node :: rest) e)
    (horder : g.IsOrder (fun _ => false) outputs order) (hsplit : order = before ++ node :: rest)
    (hlifetimes : g.lifetimes order outputs = .ok lifetimes) {released : List Nat}
    (hreleased : e.slots (dying lifetimes before.length (g.argsOf node)) = .ok released) :
    ((released ++ e.pool.free) ++ (before.filter (g.neededAfter outputs rest)).map e.slotAt).Perm
      (List.range e.pool.count) := by
  have hdying := (perm_dying horder hsplit hlifetimes).map e.slotAt
  rw [List.map_append, ← eq_map_slotAt hreleased] at hdying
  calc
    ((released ++ e.pool.free) ++ (before.filter (g.neededAfter outputs rest)).map e.slotAt).Perm
        (e.pool.free ++ (released ++
          (before.filter (g.neededAfter outputs rest)).map e.slotAt)) := by
      rw [← List.append_assoc]
      exact List.perm_append_comm.append_right _
    List.Perm _ (e.pool.free ++
        (before.filter (g.neededAfter outputs (node :: rest))).map e.slotAt) :=
      hdying.symm.append_left _
    List.Perm _ (List.range e.pool.count) := he.perm

theorem Partitioned.step (he : Partitioned g outputs before (node :: rest) e)
    (horder : g.IsOrder (fun _ => false) outputs order) (hsplit : order = before ++ node :: rest)
    (hlifetimes : g.lifetimes order outputs = .ok lifetimes)
    (hstep : step g positions lifetimes before.length e node = .ok e') :
    Partitioned g outputs (before ++ [node]) rest e' := by
  obtain ⟨n, released, i, hn, hreleased, hdst, -, rfl⟩ := step_eq_ok hstep
  rw [← Graph.argsOf_of_node hn] at hreleased
  have hrelease := he.release horder hsplit hlifetimes hreleased
  have hfree : (e.pool.releaseAll released).free = released.reverse ++ e.pool.free := by
    rw [SlotPool.free_releaseAll, he.reuse, if_pos rfl]
  have hpool : ((e.pool.releaseAll released).free ++
      (before.filter (g.neededAfter outputs rest)).map e.slotAt).Perm
        (List.range (e.pool.releaseAll released).count) := by
    rw [hfree, SlotPool.count_releaseAll]
    exact (((List.reverse_perm released).append_right _).append_right _).trans hrelease
  obtain ⟨hperm, hcount⟩ := SlotPool.perm_take hpool
  have hnew := not_mem_of_nodup horder.nodup hsplit
  -- the new value is live too
  have hlive : (before ++ [node]).filter (g.neededAfter outputs rest) =
      before.filter (g.neededAfter outputs rest) ++ [node] := by
    rw [List.filter_append, List.filter_cons_of_pos (horder.neededAfter hsplit), List.filter_nil]
  have hwhole : before ++ [node] ++ rest = before ++ node :: rest := by simp
  refine ⟨?_, ?_, ?_⟩
  · exact (SlotPool.reuse_take _).trans ((SlotPool.reuse_releaseAll e.pool released).trans he.reuse)
  · rw [hlive, List.map_append, List.map_singleton, slotAt_emit_self, hdst,
      map_slotAt_emit fun hmem => hnew (List.mem_of_mem_filter hmem)]
    exact hperm
  · rw [hwhole, List.length_append, List.length_singleton, Graph.peakUpTo_succ, ← he.count,
      Graph.liveAfter_of_split, hlive, List.length_append, List.length_singleton]
    rw [SlotPool.count_releaseAll, List.length_map] at hcount
    exact hcount

end Emission

/-! ### Programs -/

/-- How a program with reuse uses its slots, where `order` are the nodes that its instructions
compute.  A value is live from its own instruction until its last user's, an output to the end. -/
structure Program.ReusesSlots (p : Program) (g : Graph) (order outputs : List Handle) : Prop where
  count : p.slotCount = g.peakLive order outputs
  /-- Values that are live right after an instruction have slots, and different ones. -/
  separate {index : Nat} {h h' : Handle} : h ∈ g.liveAfter order outputs index →
    h' ∈ g.liveAfter order outputs index → ∃ slot slot', p.slotOf? order h = some slot ∧
      p.slotOf? order h' = some slot' ∧ slot < p.slotCount ∧ (slot = slot' → h = h')
  /-- The slot of an output is not written again. -/
  kept {before rest : List Handle} {out node : Handle} : order = before ++ node :: rest →
    out ∈ outputs → out ∈ before → p.slotOf? order out ≠ p.slotOf? order node

/-- The pool of an emission with reuse before each of its nodes: free slots and slots of live values
are those handed out so far, each once, and the slots that the node releases were not free. -/
def Emission.ReleasesOnce (g : Graph) (positions : Std.HashMap Handle Nat)
    (lifetimes : Std.HashMap Handle Lifetime) (order outputs : List Handle) : Prop :=
  ∀ before node rest, order = before ++ node :: rest → ∃ e live released,
    run g positions lifetimes 0 before { pool := { reuse := true } } = .ok e ∧
    e.slots (before.filter (g.neededAfter outputs (node :: rest))) = .ok live ∧
    (e.pool.free ++ live).Perm (List.range e.pool.count) ∧
    e.slots (dying lifetimes before.length (g.argsOf node)) = .ok released ∧
    (released ++ e.pool.free).Nodup

namespace Emission

variable {g : Graph} {positions : Std.HashMap Handle Nat}
  {lifetimes : Std.HashMap Handle Lifetime} {inputs outputs order : List Handle}
  {final : Emission} {p : Program}

theorem partitioned_start (g : Graph) (outputs order : List Handle) :
    Partitioned g outputs [] order { pool := { reuse := true } } :=
  ⟨rfl, List.Perm.refl _, rfl⟩

theorem recorded_start (reuse : Bool) : Recorded [] { pool := { reuse } } :=
  ⟨nofun, rfl⟩

/-- Before every node of an order the slots are partitioned. -/
theorem partitioned_of_run (horder : g.IsOrder (fun _ => false) outputs order)
    (hlifetimes : g.lifetimes order outputs = .ok lifetimes)
    (hrun : run g positions lifetimes 0 order { pool := { reuse := true } } = .ok final)
    {before rest : List Handle} (hsplit : order = before ++ rest) :
    ∃ mid, run g positions lifetimes 0 before { pool := { reuse := true } } = .ok mid ∧
      (Recorded before mid ∧ Partitioned g outputs before rest mid) ∧
      run g positions lifetimes before.length rest mid = .ok final :=
  run_split (motive := fun before rest e => Recorded before e ∧ Partitioned g outputs before rest e)
    hrun ⟨recorded_start true, partitioned_start g outputs order⟩
    (fun _ _ _ _ _ hsplit he hstep =>
      ⟨he.1.step (not_mem_of_nodup horder.nodup hsplit) hstep,
        he.2.step horder hsplit hlifetimes hstep⟩) hsplit

theorem releasesOnce (horder : g.IsOrder (fun _ => false) outputs order)
    (hlifetimes : g.lifetimes order outputs = .ok lifetimes)
    (hrun : run g positions lifetimes 0 order { pool := { reuse := true } } = .ok final) :
    ReleasesOnce g positions lifetimes order outputs := by
  intro before node rest hsplit
  obtain ⟨mid, hbefore, ⟨hrecorded, hpartitioned⟩, -⟩ :=
    partitioned_of_run horder hlifetimes hrun hsplit
  have hlive : mid.slots (before.filter (g.neededAfter outputs (node :: rest))) = .ok _ :=
    slots_eq_map fun h hh => hrecorded.placed h (List.mem_of_mem_filter hh)
  have hreleased : mid.slots (dying lifetimes before.length (g.argsOf node)) = .ok _ :=
    slots_eq_map fun a ha => hrecorded.placed a
      ((horder.operandsFirst before node rest hsplit a (mem_dying.mp ha).1).resolve_left
        Bool.false_ne_true)
  have hrelease := hpartitioned.release horder hsplit hlifetimes hreleased
  exact ⟨mid, _, _, hbefore, hlive, hpartitioned.perm, hreleased,
    (List.nodup_append.mp (hrelease.nodup_iff.mpr List.nodup_range)).1⟩

/-- Values that are live after the same instruction have slots of their own. -/
theorem separate_of_run (horder : g.IsOrder (fun _ => false) outputs order)
    (hlifetimes : g.lifetimes order outputs = .ok lifetimes)
    (hpositions : ∀ h, positions[h]? = inputs.idxOf? h)
    (hrun : run g positions lifetimes 0 order { pool := { reuse := true } } = .ok final)
    (hinstructions : p.instructions = final.emitted.reverse)
    (hcount : p.slotCount = final.pool.count) {index : Nat} {h h' : Handle}
    (hh : h ∈ g.liveAfter order outputs index) (hh' : h' ∈ g.liveAfter order outputs index) :
    ∃ slot slot', p.slotOf? order h = some slot ∧ p.slotOf? order h' = some slot' ∧
      slot < p.slotCount ∧ (slot = slot' → h = h') := by
  have hsplit : order = order.take (index + 1) ++ order.drop (index + 1) :=
    (List.take_append_drop _ _).symm
  obtain ⟨mid, -, ⟨hrecorded, hpartitioned⟩, hrest⟩ :=
    partitioned_of_run horder hlifetimes hrun hsplit
  have hslot : ∀ {h : Handle}, h ∈ g.liveAfter order outputs index →
      p.slotOf? order h = some (mid.slotAt h) := fun hh =>
    hrecorded.slotOf?_eq hsplit hpositions hrest hinstructions (List.mem_of_mem_filter hh)
  have hnodup := hpartitioned.perm.nodup_iff.mpr List.nodup_range
  refine ⟨_, _, hslot hh, hslot hh', ?_,
    List.inj_on_of_nodup_map (List.nodup_append.mp hnodup).2.1 hh hh'⟩
  have hlt : mid.slotAt h < mid.pool.count := List.mem_range.mp (hpartitioned.perm.mem_iff.mp
    (List.mem_append_right _ (List.mem_map_of_mem hh)))
  rw [hcount]
  exact hlt.trans_le (count_le_of_run hrest)

/-- An output that has been computed is still live when a later instruction writes its result, and
so is that result. -/
theorem mem_liveAfter_of_split (horder : g.IsOrder (fun _ => false) outputs order)
    {before rest : List Handle} {out node : Handle} (hsplit : order = before ++ node :: rest)
    (hout : out ∈ outputs) (hbefore : out ∈ before) :
    out ∈ g.liveAfter order outputs before.length ∧
      node ∈ g.liveAfter order outputs before.length := by
  have hlive : g.liveAfter order outputs before.length =
      (before ++ [node]).filter (g.neededAfter outputs rest) := by
    rw [hsplit, Graph.liveAfter_of_split]
  have hneeded : g.neededAfter outputs rest out = true := by
    simp [Graph.neededAfter, hout]
  rw [hlive, List.mem_filter, List.mem_filter]
  exact ⟨⟨List.mem_append_left _ hbefore, hneeded⟩,
    List.mem_append_right _ (List.mem_singleton_self node), horder.neededAfter hsplit⟩

/-- A program that has been emitted with reuse uses as few slots as its order allows. -/
theorem reusesSlots (horder : g.IsOrder (fun _ => false) outputs order)
    (hlifetimes : g.lifetimes order outputs = .ok lifetimes)
    (hpositions : ∀ h, positions[h]? = inputs.idxOf? h)
    (hrun : run g positions lifetimes 0 order { pool := { reuse := true } } = .ok final)
    (hinstructions : p.instructions = final.emitted.reverse)
    (hcount : p.slotCount = final.pool.count) : p.ReusesSlots g order outputs := by
  have hseparate {index : Nat} {h h' : Handle} (hh : h ∈ g.liveAfter order outputs index)
      (hh' : h' ∈ g.liveAfter order outputs index) :=
    separate_of_run horder hlifetimes hpositions hrun hinstructions hcount hh hh'
  refine ⟨?_, hseparate, ?_⟩
  · obtain ⟨mid, -, ⟨-, hpartitioned⟩, hrest⟩ :=
      partitioned_of_run horder hlifetimes hrun (List.append_nil order).symm
    obtain rfl : mid = final := Except.ok.inj hrest
    rw [hcount, hpartitioned.count, List.append_nil]
    rfl
  · intro before rest out node hsplit hout hbefore hslots
    obtain ⟨hold, hnew⟩ := mem_liveAfter_of_split horder hsplit hout hbefore
    obtain ⟨slot, slot', hslot, hslot', -, hinj⟩ := hseparate hold hnew
    have heq : slot = slot' := Option.some.inj (hslot.symm.trans (hslots.trans hslot'))
    exact not_mem_of_nodup horder.nodup hsplit (hinj heq ▸ hbefore)

end Emission

/-- The contract of slots.  Instruction `k` computes node `k` of the post-order below the outputs.
Without reuse it writes slot `k`.  With reuse there are exactly as many slots as there are values
live at once at most, values that are live at once have different slots, an output keeps its slot,
and no slot is released twice: the free slots and those of the live values are the slots handed out
so far, each once, before every instruction. -/
theorem Session.Reachable.slots_of_compile {s : Session} (hs : s.Reachable) {graph : Nat}
    {g : Graph} (hg : s.graph? graph = some g) {outputs : Outputs} {inputs : List Handle}
    {reuse : Bool} {p : Program} (hcompile : g.compile outputs inputs reuse = .ok p) :
    let order := g.postorder outputs.nodes
    order.Nodup ∧ (∀ h, h ∈ order ↔ h ∈ g.below outputs.nodes) ∧
    List.Forall₂ (fun h i => ∃ n, g.node h = .ok n ∧ i.Computes inputs h n) order
      p.instructions ∧
    p.instructions.length = (g.below outputs.nodes).ncard ∧
    (reuse = false → p.slotCount = (g.below outputs.nodes).ncard ∧
      p.written = List.range p.slotCount) ∧
    (reuse = true → p.ReusesSlots g order outputs.nodes ∧
      ∃ positions lifetimes, g.indexInputs 0 inputs {} = .ok positions ∧
        g.lifetimes order outputs.nodes = .ok lifetimes ∧
        Emission.ReleasesOnce g positions lifetimes order outputs.nodes) := by
  intro order
  have hwf := hs.wellFormed.graph hg
  obtain ⟨positions, found, lifetimes, final, hindex, hfound, hlifetimes, hrun, -, hinstructions,
    hcount, -⟩ := Graph.compile_eq_ok hcompile
  obtain ⟨hsame, horder⟩ := hwf.order_eq_postorder (Graph.live_of_order hfound)
  obtain rfl : order = found := Except.ok.inj (hsame.symm.trans hfound)
  have hpositions : ∀ h, positions[h]? = inputs.idxOf? h := fun h => by
    simp [Graph.indexInputs_getElem? hindex]
  have hcomputes : List.Forall₂ (fun h i => ∃ n, g.node h = .ok n ∧ i.Computes inputs h n) order
      p.instructions := by
    obtain ⟨is, hemitted, hcomputes⟩ := Emission.computes_of_run hpositions hrun
    rwa [hinstructions, hemitted, List.append_nil, List.reverse_reverse]
  refine ⟨horder.nodup, fun h => horder.mem_iff, hcomputes,
    by rw [horder.ncard_below, hcomputes.length_eq], ?_, ?_⟩
  · rintro rfl
    obtain ⟨mid, -, hfresh, hrest⟩ := Emission.run_split
      (motive := fun before _ e => Emission.Fresh before e) hrun ⟨rfl, rfl, rfl, rfl⟩
      (fun _ _ _ _ _ _ he hstep => he.step hstep) (List.append_nil order).symm
    obtain rfl : mid = final := Except.ok.inj hrest
    refine ⟨by rw [horder.ncard_below, hcount, hfresh.count], ?_⟩
    rw [Program.written, hinstructions, hfresh.written, hcount]
  · rintro rfl
    exact ⟨Emission.reusesSlots horder hlifetimes hpositions hrun hinstructions hcount,
      positions, lifetimes, hindex, hlifetimes, Emission.releasesOnce horder hlifetimes hrun⟩

/-- The square needs one slot with reuse and two without. -/
theorem slots_of_compile_square :
    Session.square.Reachable ∧ Session.square.graph? 0 = some Session.squareGraph ∧
    Session.squareGraph.compile (.ofList [⟨1, 0, 1⟩]) [⟨0, 0, 1⟩] true =
      .ok ⟨[.input 0 0, .binary .mul 0 0 0], [0], 1, 1, .vector 1⟩ ∧
    Session.squareGraph.peakLive (Session.squareGraph.postorder [⟨1, 0, 1⟩]) [⟨1, 0, 1⟩] = 1 ∧
    (Session.squareGraph.below [⟨1, 0, 1⟩]).ncard = 2 ∧
    ∃ plain, Session.squareGraph.compile (.ofList [⟨1, 0, 1⟩]) [⟨0, 0, 1⟩] false = .ok plain ∧
      plain.slotCount = 2 ∧ plain.written = [0, 1] := by
  have hwf := Session.reachable_square.wellFormed.graph Session.graph?_square
  have hev : Session.squareGraph.evaluator .open .flat (.ofList [⟨1, 0, 1⟩]) [⟨0, 0, 1⟩] true =
      .ok ⟨⟨[.input 0 0, .binary .mul 0 0 0], [0], 1, 1, .vector 1⟩, .flat⟩ := by
    rw [Graph.evaluator, compile_square]
    rfl
  obtain ⟨ev, hplain⟩ := (hwf.compilable_of_evaluator hev).exists_evaluator hwf false
  have hcompile := Graph.compile_of_evaluator hplain
  obtain ⟨-, -, -, hcount, -, hreuse⟩ :=
    Session.reachable_square.slots_of_compile Session.graph?_square compile_square
  obtain ⟨-, -, -, -, hfresh, -⟩ :=
    Session.reachable_square.slots_of_compile Session.graph?_square hcompile
  obtain ⟨hslots, hwritten⟩ := hfresh rfl
  have htwo : (Session.squareGraph.below [⟨1, 0, 1⟩]).ncard = 2 := hcount.symm
  have hslots' : ev.program.slotCount = 2 := hslots.trans htwo
  refine ⟨Session.reachable_square, Session.graph?_square, compile_square,
    (hreuse rfl).1.count.symm, htwo, ev.program, hcompile, hslots', ?_⟩
  rw [hwritten, hslots']
  rfl

end ExprGraph
