import Attendance.Foundation.Runs
import Attendance.PendingArray

/-!
# The pending pool is a queue

Every sequence of calls after `pending_init` returns what a list returns that starts
empty, and what a cell holds above the counter cannot be seen.
-/
namespace Attendance

/-- The functions of `pending.c` that are called with a pool. -/
inductive PoolCall where
  | add (block : Block)
  /-- `out` is the block to be overwritten; a `NULL` is `none`. -/
  | removeFront (out : Option Block)
  | get (index : Nat) (out : Block)
  | count
  | isEmpty
  | clear

/-- What a call gives its caller. -/
inductive PoolResult where
  | returned (ok : Bool)
  /-- The value of the function, and what the caller's block holds afterwards. -/
  | read (ok : Bool) (out : Option Block)
  | counted (count : Nat)
  | nothing
deriving DecidableEq

def PendingArray.call (pool : PendingArray) : PoolCall → PoolResult × PendingArray
  | .add block => (.returned (pool.pendingAdd block).1, (pool.pendingAdd block).2)
  | .removeFront out =>
    let (ok, out, rest) := pool.pendingRemoveFront out
    (.read ok out, rest)
  | .get index out =>
    let (ok, out) := pool.pendingGet index (some out)
    (.read ok out, pool)
  | .count => (.counted pool.pendingCount, pool)
  | .isEmpty => (.returned pool.pendingIsEmpty, pool)
  | .clear => (.nothing, pool.pendingClear)

/-- The bounded queue: an element is appended unless there are `MAX_PENDING`, and the head is
taken unless there is none. -/
def queueCall (queue : List Block) : PoolCall → PoolResult × List Block
  | .add block =>
    if queue.length = maxPending then (.returned false, queue)
    else (.returned true, queue ++ [block])
  | .removeFront out =>
    match queue with
    | [] => (.read false out, [])
    | front :: rest => (.read true (out.map fun _ => front), rest)
  | .get index out =>
    match queue[index]? with
    | none => (.read false (some out), queue)
    | some block => (.read true (some block), queue)
  | .count => (.counted queue.length, queue)
  | .isEmpty => (.returned queue.isEmpty, queue)
  | .clear => (.nothing, [])

/-- The results of a sequence of calls, for the array and for the list. -/
def PendingArray.results (pool : PendingArray) (calls : List PoolCall) : List PoolResult :=
  Runs.trace (fun pool call => (pool.call call).2)
    (fun pool call => [(pool.call call).1]) pool calls

def queueResults (queue : List Block) (calls : List PoolCall) : List PoolResult :=
  Runs.trace (fun queue call => (queueCall queue call).2)
    (fun queue call => [(queueCall queue call).1]) queue calls

/-- The pool that a sequence of calls leaves. -/
def PendingArray.after (pool : PendingArray) (calls : List PoolCall) : PendingArray :=
  Runs.final (fun pool call => (pool.call call).2) pool calls

/-- One call returns and leaves what it does on the list. -/
theorem call_refines_queueCall (pool : PendingArray) (call : PoolCall) :
    (pool.call call).1 = (queueCall pool.queue call).1 ∧
      (pool.call call).2.queue = (queueCall pool.queue call).2 := by
  cases call with
  | add block =>
    rw [PendingArray.call, queueCall]
    by_cases full : pool.queue.length = maxPending
    · rw [pool.pendingAdd_of_full full, if_pos full]
      exact ⟨rfl, rfl⟩
    · obtain ⟨added, queued⟩ := pool.pendingAdd_of_room full block
      rw [added, queued, if_neg full]
      exact ⟨rfl, rfl⟩
  | removeFront out =>
    rw [PendingArray.call, queueCall.eq_def]
    cases queued : pool.queue with
    | nil =>
      rw [pool.pendingRemoveFront_of_empty queued]
      exact ⟨rfl, queued⟩
    | cons front rest =>
      obtain ⟨removed, read, left⟩ := pool.pendingRemoveFront_of_cons queued out
      exact ⟨congrArg₂ PoolResult.read removed read, left⟩
  | get index out =>
    rw [PendingArray.call, queueCall, pool.pendingGet_eq]
    cases pool.queue[index]? <;> exact ⟨rfl, rfl⟩
  | count =>
    exact ⟨congrArg PoolResult.counted pool.length_queue.symm, rfl⟩
  | isEmpty =>
    refine ⟨congrArg PoolResult.returned ?_, rfl⟩
    rw [PendingArray.pendingIsEmpty, ← pool.length_queue]
    cases pool.queue <;> rfl
  | clear => exact ⟨rfl, pool.queue_pendingClear⟩

theorem results_eq_queueResults (pool : PendingArray) (calls : List PoolCall) :
    pool.results calls = queueResults pool.queue calls := by
  refine (Runs.simulation _ _ _ _ (fun pool queue => pool.queue = queue) ?_ rfl calls).1
  rintro pool _ call rfl
  obtain ⟨result, left⟩ := call_refines_queueCall pool call
  exact ⟨congrArg (fun result => [result]) result, left⟩

/-- After `pending_init` all calls return what they return on a list that starts empty. At any
time the cells above the counter may be exchanged without a later call showing it. -/
theorem pending_pool_refines_queue (calls : List PoolCall) :
    PendingArray.pendingInit.results calls = queueResults [] calls ∧
    ∀ other : PendingArray, other.count = (PendingArray.pendingInit.after calls).count →
      (∀ index, (inside : index < maxPending) →
        index < other.count →
        other.blocks[index] = (PendingArray.pendingInit.after calls).blocks[index]) →
      ∀ later, other.results later = (PendingArray.pendingInit.after calls).results later := by
  constructor
  · rw [results_eq_queueResults, PendingArray.queue_pendingInit]
  intro other count cells later
  generalize PendingArray.pendingInit.after calls = pool at count cells ⊢
  obtain ⟨blocks, _, fits⟩ := other
  subst count
  have same : Cells.used blocks pool.count = Cells.used pool.blocks pool.count := by
    rw [Cells.used_eq_iff _ fits]
    intro index inside
    exact cells index (Nat.lt_of_lt_of_le inside fits) inside
  rw [results_eq_queueResults, results_eq_queueResults]
  exact congrArg (queueResults · later) same

/-- A block that was pending before a clear is not seen afterwards. -/
theorem pending_pool_refines_queue_cleared :
    let block := initBlockFields 1 0 []
    PendingArray.pendingInit.results [.get 0 block, .isEmpty] =
      (PendingArray.pendingInit.after [.add block, .clear]).results [.get 0 block, .isEmpty] := by
  intro block
  apply (pending_pool_refines_queue [.add block, .clear]).2 PendingArray.pendingInit rfl
  intro index inside filled
  exact absurd filled (Nat.not_lt_zero index)

end Attendance
