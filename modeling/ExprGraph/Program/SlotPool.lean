/-!
# Slot pools

A pool hands out the slots that values of a program are kept in.  With reuse, a released slot is
handed out again before a fresh one is, the last one released first.
-/

namespace ExprGraph

/-- The slots handed out so far. -/
structure SlotPool where
  /-- Whether released slots are handed out again. -/
  reuse : Bool
  /-- The released slots, the last one first. -/
  free : List Nat := []
  /-- The number of different slots handed out. -/
  count : Nat := 0
deriving DecidableEq, Repr

namespace SlotPool

/-- Hands out a slot.  Without reuse no slot is ever free. -/
def take (pool : SlotPool) : Nat × SlotPool :=
  match pool.free with
  | slot :: rest => (slot, { pool with free := rest })
  | [] => (pool.count, { pool with count := pool.count + 1 })

/-- Takes a slot back. -/
def release (pool : SlotPool) (slot : Nat) : SlotPool :=
  if pool.reuse then { pool with free := slot :: pool.free } else pool

/-- Takes slots back, one after the other. -/
def releaseAll (pool : SlotPool) (slots : List Nat) : SlotPool :=
  slots.foldl release pool

@[simp] theorem reuse_take (pool : SlotPool) : pool.take.2.reuse = pool.reuse := by
  unfold take
  split <;> rfl

/-- With reuse, the slot released last is handed out next. -/
theorem take_release {pool : SlotPool} (hreuse : pool.reuse = true) (slot : Nat) :
    (pool.release slot).take = (slot, pool) := by
  cases pool
  simp_all [release, take]

/-- Slots handed out are counted. -/
theorem fst_take_lt {pool : SlotPool} (hfree : ∀ slot ∈ pool.free, slot < pool.count) :
    pool.take.1 < pool.take.2.count := by
  unfold take
  split
  · next slot rest hpool => exact hfree slot (by simp [hpool])
  · exact Nat.lt_succ_self _

end SlotPool

end ExprGraph
