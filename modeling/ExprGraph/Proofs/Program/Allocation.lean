import Mathlib
import ExprGraph.Proofs.Program.Lifetime

/-!
# Allocation

While a program is emitted, values that are still needed have slots of their own, and none of these
slots is free.  A slot is released before the slot of the result is taken, so the result may
overwrite an operand, but only one that is not needed any more.
-/

namespace ExprGraph

namespace SlotPool

/-- The free slots of a pool are different ones of those handed out. -/
structure WellFormed (pool : SlotPool) : Prop where
  nodup : pool.free.Nodup
  lt {slot : Nat} : slot ∈ pool.free → slot < pool.count

theorem count_releaseAll (pool : SlotPool) (slots : List Nat) :
    (pool.releaseAll slots).count = pool.count := by
  induction slots generalizing pool with
  | nil => rfl
  | cons slot rest ih =>
      rw [releaseAll, List.foldl_cons]
      apply (ih _).trans
      unfold release
      split <;> rfl

/-- Without reuse nothing is taken back; with it, slots are free from the last one back. -/
theorem free_releaseAll (pool : SlotPool) (slots : List Nat) :
    (pool.releaseAll slots).free =
      if pool.reuse then slots.reverse ++ pool.free else pool.free := by
  induction slots generalizing pool with
  | nil => simp [releaseAll]
  | cons slot rest ih =>
      rw [releaseAll, List.foldl_cons]
      apply (ih _).trans
      by_cases hreuse : pool.reuse = true
      · simp [release, hreuse]
      · simp [release, hreuse]

theorem mem_free_releaseAll {pool : SlotPool} {slots : List Nat} {slot : Nat}
    (hslot : slot ∈ (pool.releaseAll slots).free) : slot ∈ slots ∨ slot ∈ pool.free := by
  rw [free_releaseAll] at hslot
  split at hslot
  · simpa using hslot
  · exact .inr hslot

theorem WellFormed.releaseAll {pool : SlotPool} (hpool : pool.WellFormed) {slots : List Nat}
    (hnodup : slots.Nodup) (hlt : ∀ slot ∈ slots, slot < pool.count)
    (hused : ∀ slot ∈ slots, slot ∉ pool.free) : (pool.releaseAll slots).WellFormed where
  nodup := by
    rw [free_releaseAll]
    split
    · refine List.nodup_append.mpr ⟨List.nodup_reverse.mpr hnodup, hpool.nodup, ?_⟩
      rintro slot hslot _ hfree rfl
      exact hused slot (List.mem_reverse.mp hslot) hfree
    · exact hpool.nodup
  lt hslot := by
    rw [count_releaseAll]
    exact (mem_free_releaseAll hslot).elim (hlt _) hpool.lt

theorem count_le_count_take (pool : SlotPool) : pool.count ≤ pool.take.2.count := by
  unfold take
  split
  · exact Nat.le_refl _
  · exact Nat.le_succ _

/-- A slot that is handed out is free or new. -/
theorem fst_take (pool : SlotPool) : pool.take.1 ∈ pool.free ∨ pool.take.1 = pool.count := by
  unfold take
  split
  · next hfree => exact .inl (by simp [hfree])
  · exact .inr rfl

theorem mem_free_of_take {pool : SlotPool} {slot : Nat} (hslot : slot ∈ pool.take.2.free) :
    slot ∈ pool.free := by
  unfold take at hslot
  split at hslot
  · next hfree =>
    rw [hfree]
    exact List.mem_cons_of_mem _ hslot
  · exact hslot

theorem WellFormed.take {pool : SlotPool} (hpool : pool.WellFormed) :
    pool.take.2.WellFormed ∧ pool.take.1 ∉ pool.take.2.free := by
  have hnodup := hpool.nodup
  unfold SlotPool.take
  split
  · next slot rest hfree =>
    rw [hfree] at hnodup
    obtain ⟨hhead, hrest⟩ := List.nodup_cons.mp hnodup
    exact ⟨⟨hrest, fun hslot => hpool.lt (hfree ▸ List.mem_cons_of_mem _ hslot)⟩, hhead⟩
  · exact ⟨⟨hnodup, fun hslot => Nat.lt_succ_of_lt (hpool.lt hslot)⟩,
      fun hslot => Nat.lt_irrefl _ (hpool.lt hslot)⟩

end SlotPool

namespace Instruction

theorem dst_of_ofApplication? {op : Op} {dst : Nat} {sources : List Nat} {i : Instruction}
    (hi : ofApplication? op dst sources = some i) : i.dst = dst := by
  unfold ofApplication? at hi
  split at hi
  · cases hi
    rfl
  · cases hi
    rfl
  · split_ifs at hi
    cases hi
    rfl
  · cases hi

end Instruction

/-- Different elements have different partners, so partners are as different as elements. -/
theorem nodup_of_forall₂ {α β : Type} {R : α → β → Prop} {as : List α} {bs : List β}
    (hforall : List.Forall₂ R as bs) (has : as.Nodup)
    (hR : ∀ a ∈ as, ∀ a' ∈ as, ∀ b, R a b → R a' b → a = a') : bs.Nodup := by
  induction hforall with
  | nil => exact List.nodup_nil
  | @cons a b as bs hab hrest ih =>
      obtain ⟨hnew, has⟩ := List.nodup_cons.mp has
      refine List.nodup_cons.mpr ⟨fun hb => ?_, ih has fun c hc c' hc' =>
        hR c (List.mem_cons_of_mem a hc) c' (List.mem_cons_of_mem a hc')⟩
      obtain ⟨k, hk, rfl⟩ := List.mem_iff_getElem.mp hb
      have hk' : k < as.length := hrest.length_eq ▸ hk
      have hsame := hR a List.mem_cons_self as[k]
        (List.mem_cons_of_mem a (List.getElem_mem hk')) _ hab (hrest.get hk' hk)
      exact hnew (hsame ▸ List.getElem_mem hk')

namespace Emission

theorem slots_eq_ok_iff {e : Emission} {hs : List Handle} {slots : List Nat} :
    e.slots hs = .ok slots ↔ List.Forall₂ (fun h slot => e.slotOf[h]? = some slot) hs slots := by
  induction hs generalizing slots with
  | nil => simp [Emission.slots, eq_comm]
  | cons h rest ih =>
      rw [Emission.slots, List.forall₂_cons_left_iff]
      cases hslot : e.slotOf[h]? with
      | none => simp
      | some slot =>
          cases hrest : e.slots rest with
          | error fault =>
              simp only [hrest, reduceCtorEq, false_iff] at ih
              simp only [bind, Except.bind, reduceCtorEq, false_iff, not_exists, not_and]
              exact fun b bs _ hbs _ => ih hbs
          | ok others =>
              simp only [hrest, Except.ok.injEq] at ih
              simp only [bind, Except.bind, pure, Except.pure, Except.ok.injEq, Option.some.injEq]
              constructor
              · rintro rfl
                exact ⟨slot, others, rfl, ih.mp rfl, rfl⟩
              · rintro ⟨_, bs, rfl, hbs, rfl⟩
                rw [ih.mpr hbs]

theorem mem_dying {lifetimes : Std.HashMap Handle Lifetime} {index : Nat} {args : List Handle}
    {a : Handle} :
    a ∈ dying lifetimes index args ↔ a ∈ args ∧ lifetimes[a]? = some (.upTo index) := by
  simp [dying, List.mem_eraseDups]

theorem nodup_dying (lifetimes : Std.HashMap Handle Lifetime) (index : Nat) (args : List Handle) :
    (dying lifetimes index args).Nodup :=
  nodup_eraseDups _

/-- The instruction of a node reads its input, its literal, or the slots of its operands. -/
inductive Renders (positions : Std.HashMap Handle Nat) (slotOf : Std.HashMap Handle Nat)
    (node : Handle) : Node → Instruction → Prop
  | input {id : Nat} {name : String} {dst position : Nat}
      (hposition : positions[node]? = some position) :
      Renders positions slotOf node (.var id name) (.input dst position)
  | literal {v : Float} {dst : Nat} : Renders positions slotOf node (.lit v) (.literal dst v)
  | application {app : Application} {dst : Nat} {sources : List Nat} {i : Instruction}
      (hsources : List.Forall₂ (fun a slot => slotOf[a]? = some slot) app.args sources)
      (hi : Instruction.ofApplication? app.op dst sources = some i) :
      Renders positions slotOf node (.app app) i

/-- A step releases the operands that die, takes a slot and writes the instruction of its node. -/
theorem step_eq_ok {g : Graph} {positions : Std.HashMap Handle Nat}
    {lifetimes : Std.HashMap Handle Lifetime} {index : Nat} {e e' : Emission} {node : Handle}
    (hstep : step g positions lifetimes index e node = .ok e') :
    ∃ n released i, g.node node = .ok n ∧
      e.slots (dying lifetimes index n.args) = .ok released ∧
      i.dst = (e.pool.releaseAll released).take.1 ∧
      Renders positions e.slotOf node n i ∧
      e' = e.emit node (e.pool.releaseAll released).take.2 i := by
  unfold step at hstep
  obtain ⟨n, hnode, hstep⟩ := exists_of_bind_eq_ok hstep
  have hn := eq_ok_of_liftError hnode
  cases n with
  | var id name =>
      cases hposition : positions[node]? with
      | none => simp [hposition] at hstep
      | some position =>
          simp only [hposition] at hstep
          exact ⟨_, [], _, hn, rfl, rfl, .input hposition, (Except.ok.inj hstep).symm⟩
  | lit v => exact ⟨_, [], _, hn, rfl, rfl, .literal, (Except.ok.inj hstep).symm⟩
  | app app =>
      obtain ⟨sources, hsources, hstep⟩ := exists_of_bind_eq_ok hstep
      obtain ⟨released, hreleased, hstep⟩ := exists_of_bind_eq_ok hstep
      dsimp only at hstep
      split at hstep
      · next i hi =>
        exact ⟨_, released, i, hn, eq_ok_of_liftFault hreleased,
          Instruction.dst_of_ofApplication? hi,
          .application (slots_eq_ok_iff.mp (eq_ok_of_liftFault hsources)) hi,
          (Except.ok.inj hstep).symm⟩
      · cases hstep

/-- What holds of the slots before the nodes of `rest` are emitted. -/
structure Allocated (g : Graph) (outputs rest : List Handle) (e : Emission) : Prop where
  pool : e.pool.WellFormed
  lt {h : Handle} {slot : Nat} : e.slotOf[h]? = some slot → slot < e.pool.count
  /-- Values that are needed do not share slots. -/
  separate {h h' : Handle} {slot : Nat} : g.neededAfter outputs rest h = true →
    g.neededAfter outputs rest h' = true → e.slotOf[h]? = some slot →
    e.slotOf[h']? = some slot → h = h'
  /-- The slot of a value that is needed is not free. -/
  used {h : Handle} {slot : Nat} : g.neededAfter outputs rest h = true →
    e.slotOf[h]? = some slot → slot ∉ e.pool.free

theorem allocated_start (g : Graph) (outputs rest : List Handle) (reuse : Bool) :
    Allocated g outputs rest { pool := { reuse } } where
  pool := ⟨List.nodup_nil, fun hslot => absurd hslot List.not_mem_nil⟩
  lt hslot := by simp at hslot
  separate _ _ hslot := by simp at hslot
  used _ hslot := by simp at hslot

/-- A released slot is that of a node. -/
theorem exists_of_mem_slots {e : Emission} {hs : List Handle} {released : List Nat}
    (hreleased : e.slots hs = .ok released) {slot : Nat} (hslot : slot ∈ released) :
    ∃ a ∈ hs, e.slotOf[a]? = some slot := by
  have hforall := slots_eq_ok_iff.mp hreleased
  obtain ⟨k, hk, rfl⟩ := List.mem_iff_getElem.mp hslot
  have hk' : k < hs.length := hforall.length_eq ▸ hk
  exact ⟨hs[k], List.getElem_mem hk', hforall.get hk' hk⟩

namespace Allocated

variable {g : Graph} {outputs before rest : List Handle} {node : Handle} {n : Node} {e : Emission}
  {lifetimes : Std.HashMap Handle Lifetime} {released : List Nat} {i : Instruction}

/-- Slots of operands that die are different and in use. -/
theorem nodup_released (he : Allocated g outputs (node :: rest) e) (hn : g.node node = .ok n)
    (hreleased : e.slots (dying lifetimes before.length n.args) = .ok released) :
    released.Nodup := by
  have hneeded : ∀ a ∈ dying lifetimes before.length n.args,
      g.neededAfter outputs (node :: rest) a = true := by
    intro a ha
    rw [Graph.neededAfter_cons, Graph.argsOf_of_node hn]
    exact .inl (mem_dying.mp ha).1
  apply nodup_of_forall₂ (slots_eq_ok_iff.mp hreleased) (nodup_dying _ _ _)
  intro a ha a' ha' slot hslot hslot'
  exact he.separate (hneeded a ha) (hneeded a' ha') hslot hslot'

theorem releaseAll (he : Allocated g outputs (node :: rest) e) (hn : g.node node = .ok n)
    (hreleased : e.slots (dying lifetimes before.length n.args) = .ok released) :
    (e.pool.releaseAll released).WellFormed := by
  refine he.pool.releaseAll (he.nodup_released hn hreleased) ?_ ?_
  · intro slot hslot
    obtain ⟨a, -, hentry⟩ := exists_of_mem_slots hreleased hslot
    exact he.lt hentry
  · intro slot hslot
    obtain ⟨a, ha, hentry⟩ := exists_of_mem_slots hreleased hslot
    refine he.used ?_ hentry
    rw [Graph.neededAfter_cons, Graph.argsOf_of_node hn]
    exact .inl (mem_dying.mp ha).1

/-- A value that is needed after the step keeps a slot that is not free before it. -/
theorem not_free_of_needed (he : Allocated g outputs (node :: rest) e) (hn : g.node node = .ok n)
    (hlifetimes : g.lifetimes (before ++ node :: rest) outputs = .ok lifetimes)
    (hreleased : e.slots (dying lifetimes before.length n.args) = .ok released) {h : Handle}
    {slot : Nat} (hneeded : g.neededAfter outputs rest h = true)
    (hslot : e.slotOf[h]? = some slot) : slot ∉ (e.pool.releaseAll released).free := by
  have hbefore := Graph.neededAfter_cons.mpr (.inr hneeded : h ∈ g.argsOf node ∨ _)
  intro hfree
  rcases SlotPool.mem_free_releaseAll hfree with hdead | hold
  · obtain ⟨a, ha, hentry⟩ := exists_of_mem_slots hreleased hdead
    obtain ⟨harg, hlast⟩ := mem_dying.mp ha
    rw [← Graph.argsOf_of_node hn] at harg
    have hsame := he.separate (Graph.neededAfter_cons.mpr (.inl harg)) hbefore hentry hslot
    have hnot := (Graph.lifetimes_eq_upTo_iff hlifetimes harg).mp hlast
    rw [hsame, hneeded] at hnot
    cases hnot
  · exact he.used hbefore hslot hold

/-- The slot of the result is none of those that are needed after the step. -/
theorem dst_ne (he : Allocated g outputs (node :: rest) e) (hn : g.node node = .ok n)
    (hlifetimes : g.lifetimes (before ++ node :: rest) outputs = .ok lifetimes)
    (hreleased : e.slots (dying lifetimes before.length n.args) = .ok released) {h : Handle}
    {slot : Nat} (hneeded : g.neededAfter outputs rest h = true)
    (hslot : e.slotOf[h]? = some slot) : (e.pool.releaseAll released).take.1 ≠ slot := by
  rintro rfl
  rcases SlotPool.fst_take (e.pool.releaseAll released) with hfree | hnew
  · exact he.not_free_of_needed hn hlifetimes hreleased hneeded hslot hfree
  · have hlt := he.lt hslot
    rw [hnew, SlotPool.count_releaseAll] at hlt
    exact Nat.lt_irrefl _ hlt

theorem step (he : Allocated g outputs (node :: rest) e) (hn : g.node node = .ok n)
    (hlifetimes : g.lifetimes (before ++ node :: rest) outputs = .ok lifetimes)
    (hreleased : e.slots (dying lifetimes before.length n.args) = .ok released)
    (hdst : i.dst = (e.pool.releaseAll released).take.1) :
    Allocated g outputs rest (e.emit node (e.pool.releaseAll released).take.2 i) := by
  have hpool := he.releaseAll hn hreleased
  have hslotOf : ∀ h, (e.emit node (e.pool.releaseAll released).take.2 i).slotOf[h]? =
      if node = h then some (e.pool.releaseAll released).take.1 else e.slotOf[h]? := by
    intro h
    simp only [emit, hdst, Std.HashMap.getElem?_insert, beq_iff_eq]
  constructor
  · exact hpool.take.1
  · intro h slot hslot
    rw [hslotOf] at hslot
    split at hslot
    · cases hslot
      exact SlotPool.fst_take_lt fun _ => hpool.lt
    · apply (he.lt hslot).trans_le
      rw [← SlotPool.count_releaseAll e.pool released]
      exact SlotPool.count_le_count_take _
  · intro h h' slot hh hh' hslot hslot'
    rw [hslotOf] at hslot hslot'
    split at hslot
    · next hself =>
      split at hslot'
      · next hself' => exact hself.symm.trans hself'
      · cases hslot
        exact absurd rfl (he.dst_ne hn hlifetimes hreleased hh' hslot')
    · split at hslot'
      · cases hslot'
        exact absurd rfl (he.dst_ne hn hlifetimes hreleased hh hslot)
      · exact he.separate (Graph.neededAfter_cons.mpr (.inr hh))
          (Graph.neededAfter_cons.mpr (.inr hh')) hslot hslot'
  · intro h slot hh hslot
    rw [hslotOf] at hslot
    split at hslot
    · cases hslot
      exact hpool.take.2
    · intro hfree
      exact he.not_free_of_needed hn hlifetimes hreleased hh hslot
        (SlotPool.mem_free_of_take hfree)

end Allocated

end Emission

end ExprGraph
