import Attendance.Foundation.Cells
import Attendance.Pending

/-!
# The pool in its array

`pending.c` on the array and the counter of `PendingPool`. Cells above the counter keep
what they held; `toPool` forgets them, and the functions on `PendingPool` are those of the
array seen through it.
-/
namespace Attendance

/-- `PendingPool` as it lies in memory. -/
structure PendingArray where
  blocks : Vector Block maxPending
  count : Nat
  fits : count ≤ maxPending

namespace PendingArray

variable (pool : PendingArray)

/-- The blocks that are pending, in order. -/
def queue : List Block := Cells.used pool.blocks pool.count

@[simp] theorem length_queue : pool.queue.length = pool.count :=
  Cells.length_used pool.blocks pool.fits

def toPool : PendingPool := ⟨pool.queue, by rw [length_queue]; exact pool.fits⟩

/-- `pending_init`, with a cleared block in every cell. -/
def pendingInit : PendingArray :=
  ⟨.replicate maxPending (initBlockFields 0 0 []), 0, Nat.zero_le _⟩

def pendingAdd (block : Block) : Bool × PendingArray :=
  if room : pool.count < maxPending then
    (true, ⟨pool.blocks.set pool.count block, pool.count + 1, room⟩)
  else (false, pool)

def pendingIsEmpty : Bool := pool.count = 0

def pendingCount : Nat := pool.count

/-- `out` is the block that the pointer of the caller shows, and `none` is `NULL`. -/
def pendingGet (index : Nat) (out : Option Block) : Bool × Option Block :=
  if inside : out.isSome ∧ index < pool.count then
    have bound : index < maxPending := Nat.lt_of_lt_of_le inside.2 pool.fits
    (true, some pool.blocks[index])
  else (false, out)

/-- The blocks stay in their cells. -/
def pendingClear : PendingArray := ⟨pool.blocks, 0, Nat.zero_le _⟩

def pendingRemoveFront (out : Option Block) : Bool × Option Block × PendingArray :=
  match pool with
  | ⟨_, 0, _⟩ => (false, out, pool)
  | ⟨blocks, last + 1, fits⟩ =>
    (true, out.map fun _ => blocks[0],
      ⟨Cells.shiftDown blocks last fits, last, Nat.le_of_succ_le fits⟩)

/-! ### What is pending after a call -/

theorem queue_pendingInit : pendingInit.queue = [] := rfl

theorem pendingAdd_of_full (full : pool.queue.length = maxPending) (block : Block) :
    pool.pendingAdd block = (false, pool) := by
  rw [length_queue] at full
  rw [pendingAdd, dif_neg (by omega)]

theorem pendingAdd_of_room (room : pool.queue.length ≠ maxPending) (block : Block) :
    (pool.pendingAdd block).1 = true ∧ (pool.pendingAdd block).2.queue = pool.queue ++ [block] := by
  rw [length_queue] at room
  have free : pool.count < maxPending := Nat.lt_of_le_of_ne pool.fits room
  rw [pendingAdd, dif_pos free]
  exact ⟨rfl, Cells.used_set pool.blocks free block⟩

theorem pendingGet_eq (index : Nat) (out : Block) :
    pool.pendingGet index (some out) =
      match pool.queue[index]? with
      | none => (false, some out)
      | some block => (true, some block) := by
  by_cases inside : index < pool.count
  · rw [pendingGet, dif_pos ⟨rfl, inside⟩, queue, Cells.getElem?_used _ inside pool.fits]
  · have outside : pool.queue[index]? = none := by
      rw [List.getElem?_eq_none_iff, length_queue]
      exact Nat.not_lt.mp inside
    rw [pendingGet, dif_neg (fun both => inside both.2), outside]

theorem queue_pendingClear : pool.pendingClear.queue = [] := rfl

theorem pendingRemoveFront_of_empty (empty : pool.queue = []) (out : Option Block) :
    pool.pendingRemoveFront out = (false, out, pool) := by
  have nothing : pool.count = 0 := by rw [← length_queue, empty, List.length_nil]
  obtain ⟨blocks, count, fits⟩ := pool
  subst nothing
  rfl

theorem pendingRemoveFront_of_cons {front : Block} {rest : List Block}
    (queued : pool.queue = front :: rest) (out : Option Block) :
    (pool.pendingRemoveFront out).1 = true ∧
      (pool.pendingRemoveFront out).2.1 = out.map (fun _ => front) ∧
      (pool.pendingRemoveFront out).2.2.queue = rest := by
  have filled : pool.count = rest.length + 1 := by rw [← length_queue, queued, List.length_cons]
  obtain ⟨blocks, count, fits⟩ := pool
  subst filled
  have first := Cells.getElem?_used blocks (Nat.succ_pos _) fits
  have others := Cells.used_shiftDown blocks fits
  rw [queue] at queued
  simp only [queued, List.getElem?_cons_zero, Option.some_inj] at first
  rw [queued] at others
  exact ⟨rfl, by rw [first]; rfl, others⟩

/-! ### The pool of the other functions -/

theorem toPool_pendingInit : pendingInit.toPool = Attendance.pendingInit := rfl

theorem toPool_pendingAdd (block : Block) :
    Attendance.pendingAdd pool.toPool block =
      ((pool.pendingAdd block).1, (pool.pendingAdd block).2.toPool) := by
  by_cases full : pool.queue.length = maxPending
  · rw [pendingAdd_of_full pool full, Attendance.pendingAdd, dif_neg]
    exact Nat.not_lt.mpr full.ge
  · have room : pool.toPool.blocks.length < maxPending :=
      Nat.lt_of_le_of_ne pool.toPool.fits full
    obtain ⟨added, queued⟩ := pool.pendingAdd_of_room full block
    rw [Attendance.pendingAdd, dif_pos room, added]
    exact congrArg (Prod.mk true) (PendingPool.ext queued.symm)

theorem toPool_pendingIsEmpty : Attendance.pendingIsEmpty pool.toPool = pool.pendingIsEmpty := by
  rw [Attendance.pendingIsEmpty, pendingIsEmpty, ← length_queue]
  rfl

theorem toPool_pendingCount : Attendance.pendingCount pool.toPool = pool.pendingCount :=
  pool.length_queue

theorem toPool_pendingRemoveFront (out : Block) :
    Attendance.pendingRemoveFront pool.toPool =
      match pool.pendingRemoveFront (some out) with
      | (true, some block, rest) => some (block, rest.toPool)
      | _ => none := by
  cases queued : pool.queue with
  | nil =>
    have empty : pool.toPool = Attendance.pendingInit := PendingPool.ext queued
    rw [pool.pendingRemoveFront_of_empty queued, empty]
    rfl
  | cons front others =>
    obtain ⟨removed, read, left⟩ := pool.pendingRemoveFront_of_cons queued (some out)
    rcases result : pool.pendingRemoveFront (some out) with ⟨ok, block, rest⟩
    rw [result] at removed read left
    simp only at removed read left
    subst removed read
    have same : pool.toPool = ⟨front :: others, queued ▸ pool.toPool.fits⟩ := PendingPool.ext queued
    rw [same, Attendance.pendingRemoveFront, Option.map_some]
    exact congrArg (fun rest => some (front, rest)) (PendingPool.ext left.symm)

end PendingArray

end Attendance
