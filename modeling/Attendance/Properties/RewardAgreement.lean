import Attendance.Rewards
import Attendance.Sample

/-!
# Chain and ledger agree on rewards

A mining call credits each student with the rewards of the blocks it appends, less the
fees. It fails to do so only when it appends a block that the ledger has no room to pay
for: the block stays on the chain, and two of the three loops go on as if it had been
paid.
-/
namespace Attendance

open CText MachineInt Calls

/-- A call raises the balance of every student by what the appended blocks pay, exactly if
there is room for the reward of each block it confirms. -/
theorem rewards_agree_iff (env : Env) (registry : StudentRegistry) (st : MineState)
    (difficulty : Int32) (call : MiningCall)
    (filled : ∀ block ∈ st.pool.blocks, Consistent env registry block)
    (inRange : (mine env st difficulty call).overflow = false)
    (sums : ∀ studentId, ¬call.PaysMiner studentId → st.ledger.BalanceInRange studentId ∧
      (mine env st difficulty call).state.ledger.BalanceInRange studentId) :
    let after := (mine env st difficulty call).state
    (∀ studentId, ¬call.PaysMiner studentId → (ledgerBalance after.ledger studentId).toInt =
      (ledgerBalance st.ledger studentId).toInt +
        earned studentId (after.chain.blocks.drop st.chain.blocks.length)) ↔
      call.PaysEach env st difficulty := by
  intro after
  rw [← beyondRewards_mine filled inRange]
  obtain ⟨appended, grown, _⟩ := mine_appends env st difficulty call
  change after.chain.blocks = _ at grown
  change _ ↔ call.beyondRewards after = _
  -- student by student: the balance less the rewards of the whole chain
  rw [funext_iff, Subtype.forall]
  refine forall_congr' fun studentId => forall_congr' fun student => ?_
  obtain ⟨before, later⟩ := sums studentId student
  rw [toInt_ledgerBalance before, toInt_ledgerBalance later, grown, List.drop_left]
  change after.ledger.exactBalance studentId = _ ↔
    after.ledger.exactBalance studentId - earned studentId after.chain.blocks =
      st.ledger.exactBalance studentId - earned studentId st.chain.blocks
  rw [grown, earned_append]
  omega

/-- A cloud call that appends the blocks of both students. -/
theorem rewards_agree_iff_sample :
    let st := (Runs.final (sessionStep Sample.env Sample.registry) (Sample.start .account)
      [.mark "ALU001".toList "PRESENT".toList, .mark "ALU002".toList "LATE".toList]).toMineState
    let after := (mine Sample.env st 1 (.cloud 2 3 1)).state
    (∀ studentId, ¬(MiningCall.cloud 2 3 1).PaysMiner studentId →
      (ledgerBalance after.ledger studentId).toInt = (ledgerBalance st.ledger studentId).toInt +
        earned studentId (after.chain.blocks.drop st.chain.blocks.length)) ↔
      (MiningCall.cloud 2 3 1).PaysEach Sample.env st 1 :=
  rewards_agree_iff Sample.env Sample.registry
    (Runs.final (sessionStep Sample.env Sample.registry) (Sample.start .account)
      [.mark "ALU001".toList "PRESENT".toList, .mark "ALU002".toList "LATE".toList]).toMineState
    1 (.cloud 2 3 1) (by decide +kernel) (by decide +kernel)
    (fun studentId _ => ⟨balanceInRange_of_account (by decide +kernel) studentId,
      balanceInRange_of_account (by decide +kernel) studentId⟩)

/-- A pending block, and a UTXO set that is full. -/
def Sample.noRoom : MineState :=
  let start := (Sample.start .utxo).toMineState
  { start with
    pool := (markAttendance Sample.env start.world start.pool start.chain Sample.registry
      "ALU001".toList "PRESENT".toList).state.2
    ledger := ⟨.utxo, ⟨List.replicate maxUtxos ⟨.empty, 0, .strncpy soloMiner, 1, false⟩, by simp⟩,
      .empty⟩ }

private theorem not_paysMiner_cloud :
    ¬(MiningCall.cloud 1 0 0).PaysMiner "ALU001".toList := by
  generalize written : "ALU001".toList = studentId
  rintro ((_ | ⟨number, _⟩ | _) | ⟨_, ⟨⟩⟩)
  · revert written
    decide
  · have first : (poolMiner number).head? = some 'P' := rfl
    rw [← written] at first
    revert first
    decide
  · revert written
    decide

/-- A cloud call that returns true appends the block of a student and pays nothing. -/
theorem reward_dropped_when_full :
    let after := mine Sample.env Sample.noRoom 1 (.cloud 1 0 0)
    (∀ block ∈ Sample.noRoom.pool.blocks, Consistent Sample.env Sample.registry block) ∧
    ¬(MiningCall.cloud 1 0 0).PaysMiner "ALU001".toList ∧
    after.ok = true ∧ after.overflow = false ∧
    earned "ALU001".toList (after.state.chain.blocks.drop Sample.noRoom.chain.blocks.length) = 9 ∧
    (ledgerBalance after.state.ledger "ALU001".toList).toInt =
      (ledgerBalance Sample.noRoom.ledger "ALU001".toList).toInt :=
  ⟨by decide +kernel, not_paysMiner_cloud, by decide +kernel, by decide +kernel, by decide +kernel,
    by decide +kernel⟩

end Attendance
