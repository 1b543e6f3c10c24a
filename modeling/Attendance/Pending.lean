import Attendance.Blockchain
import Attendance.Students
import Attendance.Transactions

/-!
# The pending pool

`pending.c`: the queue of unconfirmed blocks and the marking of attendance.
-/
namespace Attendance

open CText

def pendingInit : PendingPool := ⟨[], Nat.zero_le _⟩

def pendingAdd (pool : PendingPool) (block : Block) : Bool × PendingPool :=
  if room : pool.blocks.length < maxPending then
    (true, ⟨pool.blocks ++ [block], by simpa [Nat.succ_le_iff] using room⟩)
  else (false, pool)

def pendingIsEmpty (pool : PendingPool) : Bool := pool.blocks.length = 0

def pendingCount (pool : PendingPool) : Nat := pool.blocks.length

/-- The block at the front and the pool without it. -/
def pendingRemoveFront (pool : PendingPool) : Option (Block × PendingPool) :=
  match pool.blocks, pool.fits with
  | [], _ => none
  -- the other blocks move up by one
  | block :: rest, fits => some (block, ⟨rest, Nat.le_of_succ_le fits⟩)

/-- The same assignments as `init_block_fields`. -/
def initPendingBlockFields (index : Int32) (timestamp : Int64) (previousHash : List Char) :
    Block :=
  initBlockFields index timestamp previousHash

/-- The end of `finalize_pending_block`: the hash stays zero until the block is mined. -/
def signPendingBlock (env : Env) (world : World) (block : Block) : World × Option Block :=
  match signBlock env world block with
  | (world, none) => (world, none)
  | (world, some block) =>
    (world, some { block with hash := ⟨List.replicate 64 '0', length_zeros⟩ })

def finalizePendingBlock (env : Env) (world : World) (block : Block) : World × Option Block :=
  let attached : Option Block :=
    -- an absence carries no transaction
    if 0 < block.tokenReward then
      match createRewardTransaction env block with
      | (false, _) => none
      | (true, tx) => some { block with transactionId := .strncpy tx.txId.text }
    else some { block with transactionId := .empty }
  match attached with
  | none => (world, none)
  | some block => signPendingBlock env world block

/-- The block `mark_attendance` hands to `finalize_pending_block`. -/
def pendingBlock (chain : Blockchain) (queued : Nat) (timestamp : Int64) (student : Student)
    (status : List Char) : Block :=
  let tip := blockchainTip chain
  -- tentative, as the previous hash: mining sets both again
  let nextIndex := match tip with
    | none => 0
    | some tip => tip.index + 1 + Int32.ofNat queued
  let previousHash := (tip.map Block.hash).getD genesisPrevHash
  { initPendingBlockFields nextIndex timestamp previousHash.text with
    studentId := .strncpy student.studentId.text
    fullName := .strncpy student.fullName.text
    courseCode := .strncpy student.courseCode.text
    status := .strncpy status
    tokenReward := tokenRewardForStatus status }

def markAttendance (env : Env) (world : World) (pool : PendingPool) (chain : Blockchain)
    (registry : StudentRegistry) (studentId status : List Char) : Outcome (World × PendingPool) :=
  if !isValidStatus status then ⟨false, (world, pool), false⟩
  else
    match findStudent registry studentId with
    | none => ⟨false, (world, pool), false⟩
    | some student =>
      if pool.blocks.length ≥ maxPending then ⟨false, (world, pool), false⟩
      else
        -- the balance of the student is not touched here
        let block := pendingBlock chain pool.blocks.length (env.time world.calls) student status
        match finalizePendingBlock env world.next block with
        | (world, none) => ⟨false, (world, pool), false⟩
        | (world, some block) =>
          match pendingAdd pool block with
          | (added, pool) => ⟨added, (world, pool), false⟩

end Attendance
