import Attendance.Ledger.Operations
import Attendance.Rounds
import Attendance.Session

/-!
# Attendance records

The part of a block that `mark_attendance` fixes and mining keeps, and what one
command can do to the records on the chain and in the pool.
-/
namespace Attendance

open CText Calls

/-- The attendance contents of a block. -/
structure AttendanceRecord where
  studentId : CStr studentIdLen
  fullName : CStr fullNameLen
  courseCode : CStr courseCodeLen
  status : CStr statusLen
  timestamp : Int64
  tokenReward : Int32
  transactionId : CStr hashLen
deriving DecidableEq

def Block.record (block : Block) : AttendanceRecord :=
  ⟨block.studentId, block.fullName, block.courseCode, block.status, block.timestamp,
    block.tokenReward, block.transactionId⟩

/-- Mining keeps the record: it sets the index, the previous hash, the signature, the
nonce and the hash. -/
theorem MinedFrom.record {env : Env} {difficulty : Int32} {st : MineState} {front mined : Block}
    (mining : MinedFrom env difficulty st front mined) : mined.record = front.record := by
  obtain ⟨signature, nonce, _, rfl, _, _⟩ := mining
  rfl

/-- A block agrees with the registry, the reward table and its own transaction. -/
structure Consistent (env : Env) (registry : StudentRegistry) (block : Block) : Prop where
  status : isValidStatus block.status.text = true
  tokenReward : block.tokenReward = tokenRewardForStatus block.status.text
  student : findStudent registry block.studentId.text =
    some ⟨block.studentId, block.fullName, block.courseCode⟩
  created : (createRewardTransaction env block).1 = true
  transactionId : block.transactionId =
    if 0 < block.tokenReward then (createRewardTransaction env block).2.txId else .empty

theorem consistent_iff (env : Env) (registry : StudentRegistry) (block : Block) :
    Consistent env registry block ↔ isValidStatus block.status.text = true ∧
      block.tokenReward = tokenRewardForStatus block.status.text ∧
      findStudent registry block.studentId.text =
        some ⟨block.studentId, block.fullName, block.courseCode⟩ ∧
      (createRewardTransaction env block).1 = true ∧
      block.transactionId =
        if 0 < block.tokenReward then (createRewardTransaction env block).2.txId else .empty := by
  constructor
  · rintro ⟨status, tokenReward, student, created, transactionId⟩
    exact ⟨status, tokenReward, student, created, transactionId⟩
  · rintro ⟨status, tokenReward, student, created, transactionId⟩
    exact ⟨status, tokenReward, student, created, transactionId⟩

instance (env : Env) (registry : StudentRegistry) (block : Block) :
    Decidable (Consistent env registry block) :=
  decidable_of_iff _ (consistent_iff env registry block).symm

theorem createRewardTransaction_record (env : Env) {left right : Block}
    (same : left.record = right.record) :
    createRewardTransaction env left = createRewardTransaction env right := by
  simp only [Block.record, AttendanceRecord.mk.injEq] at same
  simp only [createRewardTransaction, same]

theorem Consistent.of_record {env : Env} {registry : StudentRegistry} {left right : Block}
    (same : left.record = right.record) (consistent : Consistent env registry left) :
    Consistent env registry right := by
  obtain ⟨status, tokenReward, student, created, transactionId⟩ := consistent
  rw [createRewardTransaction_record env same] at created transactionId
  simp only [Block.record, AttendanceRecord.mk.injEq] at same
  obtain ⟨studentId, fullName, courseCode, statuses, _, rewards, transactionIds⟩ := same
  rw [studentId, fullName, courseCode] at student
  rw [statuses] at status tokenReward
  rw [rewards] at tokenReward transactionId
  rw [transactionIds] at transactionId
  exact ⟨status, tokenReward, student, created, transactionId⟩

/-- A reward from the table is either nothing or more than the fee. -/
theorem tokenRewardForStatus_cases (status : List Char) :
    1 < tokenRewardForStatus status ∨ tokenRewardForStatus status = 0 := by
  unfold tokenRewardForStatus
  split
  · exact Or.inl (by decide)
  · split
    · exact Or.inl (by decide)
    · exact Or.inr rfl

theorem created_of_tokenReward (env : Env) {block : Block} {status : List Char}
    (reward : block.tokenReward = tokenRewardForStatus status) :
    (createRewardTransaction env block).1 = true := by
  rcases tokenRewardForStatus_cases status with large | nothing
  · rw [← reward] at large
    rw [createRewardTransaction_eq env large]
  · rw [nothing] at reward
    simp [createRewardTransaction, reward]

private theorem signPendingBlock_record {env : Env} {world world' : World} {block final : Block}
    (returned : signPendingBlock env world block = (world', some final)) :
    final.record = block.record := by
  unfold signPendingBlock at returned
  cases signing : signBlock env world block with
  | mk signedWorld result =>
    rw [signing] at returned
    cases result with
    | none => cases returned
    | some signed =>
      cases returned
      have shape := signBlock_some (congrArg Prod.snd signing)
      rw [shape]
      rfl

/-- Finalizing a block attaches its transaction id and changes no other part of the record. -/
private theorem finalizePendingBlock_record {env : Env} {world world' : World}
    {block final : Block} (returned : finalizePendingBlock env world block = (world', some final)) :
    final.record = { block.record with transactionId :=
      if 0 < block.tokenReward then (createRewardTransaction env block).2.txId else .empty } := by
  unfold finalizePendingBlock at returned
  by_cases positive : 0 < block.tokenReward
  · simp only [if_pos positive] at returned ⊢
    cases created : createRewardTransaction env block with
    | mk ok tx =>
      cases ok with
      | false => simp [created] at returned
      | true =>
        simp only [created, CStr.strncpy_text] at returned
        exact signPendingBlock_record returned
  · simp only [if_neg positive] at returned ⊢
    exact signPendingBlock_record returned

private theorem consistent_of_record {env : Env} {registry : StudentRegistry} {marked : Block}
    {studentId status : List Char} {time : Int64} {student : Student} {block : Block}
    (valid : isValidStatus status = true)
    (found : findStudent registry studentId = some student)
    (pending : marked.record = ⟨student.studentId, student.fullName, student.courseCode,
      .strncpy status, time, tokenRewardForStatus status, .empty⟩)
    (record : block.record = { marked.record with transactionId :=
      if 0 < marked.tokenReward then (createRewardTransaction env marked).2.txId else .empty }) :
    Consistent env registry block ∧ block.studentId.text = studentId ∧
      block.status.text = status ∧ block.timestamp = time := by
  have stored : (CStr.strncpy status : CStr statusLen).text = status :=
    CStr.text_strncpy (length_of_isValidStatus valid)
  obtain ⟨identified, found⟩ := findStudent_studentId found
  -- a transaction is made from the owner and the reward alone
  have transactions : createRewardTransaction env block = createRewardTransaction env marked := by
    have owner : block.studentId = marked.studentId :=
      congrArg AttendanceRecord.studentId record
    have reward : block.tokenReward = marked.tokenReward :=
      congrArg AttendanceRecord.tokenReward record
    simp only [createRewardTransaction, owner, reward]
  have reward : marked.tokenReward = tokenRewardForStatus status :=
    congrArg AttendanceRecord.tokenReward pending
  rw [pending, ← transactions, reward] at record
  simp only [Block.record, AttendanceRecord.mk.injEq] at record
  obtain ⟨studentIds, fullNames, courseCodes, statuses, times, rewards, transactionIds⟩ := record
  refine ⟨⟨?_, ?_, ?_, created_of_tokenReward env rewards, ?_⟩, ?_, ?_, times⟩
  · rw [statuses, stored]
    exact valid
  · rw [statuses, stored]
    exact rewards
  · rw [studentIds, fullNames, courseCodes]
    exact found
  · rw [rewards]
    exact transactionIds
  · rw [studentIds, identified]
  · rw [statuses, stored]

/-- What marking does: it queues a consistent block for the given student and status, or
leaves the pool as it was. -/
theorem markAttendance_cases (env : Env) (world : World) (pool : PendingPool)
    (chain : Blockchain) (registry : StudentRegistry) (studentId status : List Char) :
    (∃ world' pool' block,
      markAttendance env world pool chain registry studentId status =
        ⟨true, (world', pool'), false⟩ ∧
      pool'.blocks = pool.blocks ++ [block] ∧ Consistent env registry block ∧
      block.studentId.text = studentId ∧ block.status.text = status ∧
      block.timestamp = env.time world.calls) ∨
    ∃ world', markAttendance env world pool chain registry studentId status =
      ⟨false, (world', pool), false⟩ := by
  unfold markAttendance
  by_cases valid : isValidStatus status = true
  · cases found : findStudent registry studentId with
    | none =>
      right
      exact ⟨world, by simp [valid]⟩
    | some student =>
      by_cases full : pool.blocks.length ≥ maxPending
      · right
        exact ⟨world, by simp [valid, full]⟩
      · simp only [valid, Bool.not_true, Bool.false_eq_true, if_false, if_neg full]
        cases finalized : finalizePendingBlock env world.next (pendingBlock chain
            pool.blocks.length (env.time world.calls) student status) with
        | mk world' result =>
          cases result with
          | none =>
            right
            exact ⟨world', rfl⟩
          | some block =>
            left
            have room : pool.blocks.length < maxPending := by omega
            refine ⟨world', ⟨pool.blocks ++ [block], by simpa [Nat.succ_le_iff] using room⟩, block,
              ?_, rfl, consistent_of_record valid found ?_ (finalizePendingBlock_record finalized)⟩
            · simp [pendingAdd, room]
            · simp [pendingBlock, Block.record, initPendingBlockFields, initBlockFields]
  · right
    exact ⟨world, by simp [valid]⟩

/-! ### Credited transactions -/

/-- A confirmed block has the reward of its status, as `mark_attendance` gives it. -/
def LedgerOp.FromAttendance : LedgerOp → Prop
  | .confirm block => block.tokenReward = tokenRewardForStatus block.status.text
  | _ => True

instance : DecidablePred LedgerOp.FromAttendance
  | .confirm _ => inferInstanceAs (Decidable (_ = _))
  | .creditMiner _ _ | .transfer _ _ _ | .transferNonce _ _ _ _ => isTrue trivial

/-- A transaction that pays one output, as rewards and miner credits do. -/
structure PaysOne (tx : Transaction) (output : TxOutput) : Prop where
  isReward : tx.isReward = true
  fee : tx.fee = 0 ∨ tx.fee = 1
  inputs : tx.inputs = []
  outputs : tx.outputs = [output]

/-- What a credit of a positive amount adds to the set. -/
theorem paysOne_transaction (env : Env) {op : LedgerOp} {output : TxOutput}
    (credit : op.IsCredit) (attendance : op.FromAttendance)
    (outputs : (op.transaction env).outputs = [output]) :
    PaysOne (op.transaction env) output ∧
      (op.transaction env).txId = sha256Hex env (transactionText (op.transaction env)) := by
  cases op with
  | confirm block =>
    -- without a reward there would be no output
    have rewarded : block.tokenReward ≠ 0 := by
      intro nothing
      simp [LedgerOp.transaction, createRewardTransaction, nothing] at outputs
    have large : 1 < block.tokenReward := by
      have reward : block.tokenReward = tokenRewardForStatus block.status.text := attendance
      rcases tokenRewardForStatus_cases block.status.text with large | nothing
      · rwa [reward]
      · exact absurd (reward.trans nothing) rewarded
    simp only [LedgerOp.transaction, createRewardTransaction_eq env large] at outputs ⊢
    exact ⟨⟨rfl, Or.inr rfl, rfl, outputs⟩, rfl⟩
  | creditMiner minerId amount => exact ⟨⟨rfl, Or.inl rfl, rfl, outputs⟩, rfl⟩
  | transfer | transferNonce => exact absurd credit id

end Attendance
