import Attendance.CloudProfit
import Attendance.Sample

/-!
# What a cloud call issues

`mining_cloud` credits the profit of a simulated rental of several rounds, each of which
earns the rewards of all pending blocks. The blocks are confirmed only once.
-/
namespace Attendance

open CText MachineInt Calls

/-- What is credited to `CLOUD_USER` is at most `MINING_REWARD` for each block that the call
appends. -/
def IssuesAtMostRewards (env : Env) (st : MineState)
    (difficulty rounds rentalFee maintenanceFee : Int32) : Prop :=
  let after := (miningCloud env st difficulty rounds rentalFee maintenanceFee).state
  exactSum (cloudCredits env st difficulty rounds rentalFee maintenanceFee) ≤
    miningReward.toInt * (after.chain.blocks.length - st.chain.blocks.length : Nat)

instance (env : Env) (st : MineState) (difficulty rounds rentalFee maintenanceFee : Int32) :
    Decidable (IssuesAtMostRewards env st difficulty rounds rentalFee maintenanceFee) :=
  inferInstanceAs (Decidable (_ ≤ _))

/-- A credit made for a profit, if there is room for it, against the rewards of the blocks. -/
private theorem credit_le_iff (netProfit : Int32) (room : Prop) [Decidable room]
    (blocksToMine : Nat) :
    exactSum (if 0 < netProfit ∧ room then [netProfit] else []) ≤ 20 * (blocksToMine : Int) ↔
      ¬room ∨ netProfit.toInt ≤ 20 * (blocksToMine : Int) := by
  by_cases roomy : room
  · by_cases positive : 0 < netProfit
    · simp [positive, roomy]
    -- a loss is not credited, and is below every reward
    · have loss := Int32.le_iff_toInt_le.mp (Int32.not_lt.mp positive)
      rw [Int32.toInt_zero] at loss
      simp only [positive, roomy, and_true, if_false, exactSum_nil, not_true, false_or]
      exact iff_of_true (by omega) (by omega)
  · simp only [roomy, and_false, if_false, exactSum_nil, not_false_eq_true, true_or, iff_true]
    omega

/-- A cloud call issues no more than the rewards of the blocks it appends exactly if one of
its rounds cannot confirm a block, if there is no room for the credit after the rewards of the
blocks, or if the profit, as it is left by wrapped sums, does not exceed these rewards. -/
theorem cloud_issues_at_most_rewards_iff (env : Env) (st : MineState)
    (difficulty rounds rentalFee maintenanceFee : Int32) (pending : st.pool.blocks ≠ [])
    (allowed : cloudMinRounds ≤ rounds ∧ rounds ≤ cloudMaxRounds) :
    let blocksToMine := st.pool.blocks.length
    IssuesAtMostRewards env st difficulty rounds rentalFee maintenanceFee ↔
      ¬AllConfirmable env difficulty st ∨
      ¬st.ledger.HasRoomAfter (paidStudents st.pool.blocks) cloudUser ∨
      (rounds.toInt * exactNet blocksToMine rentalFee maintenanceFee).bmod (2 ^ 32) ≤
        20 * (blocksToMine : Int) := by
  intro blocksToMine
  let call := MiningCall.cloud rounds rentalFee maintenanceFee
  have settles : ∀ ledger block, (call.settle env ledger block).ok = true := settleUnchecked_ok env
  have accepted : ¬call.Rejected st :=
    not_rejected_cloud rentalFee maintenanceFee pending allowed
  have chain : (miningCloud env st difficulty rounds rentalFee maintenanceFee).state.chain =
      (call.loop env st difficulty).state.chain := (mine_of_accepted env difficulty accepted).1
  have value : (miningReward : Int32).toInt = 20 := rfl
  rw [IssuesAtMostRewards, chain, value]
  -- the net profit is credited only after all blocks are confirmed, and may have wrapped
  by_cases all : AllConfirmable env difficulty st
  · rw [loop_appends_all env settles st difficulty all, Nat.add_sub_cancel_left,
      cloudCredits_of_allConfirmable env all]
    have count : (rounds.toInt.toNat : Int) = rounds.toInt := by
      have low := Int32.le_iff_toInt_le.mp allowed.1
      have one : (cloudMinRounds : Int32).toInt = 1 := rfl
      omega
    have profit : (cloudRounds blocksToMine rentalFee maintenanceFee
        rounds.toInt.toNat).netProfit.toInt =
        (rounds.toInt * exactNet blocksToMine rentalFee maintenanceFee).bmod (2 ^ 32) := by
      rw [(wrappedAt_cloudRounds blocksToMine rentalFee maintenanceFee rounds.toInt.toNat).net,
        Int32.toInt_ofInt, count]
      rfl
    rw [← profit]
    simp only [all, not_true, false_or]
    exact credit_le_iff _ _ blocksToMine
  -- a failed loop credits nothing
  · have failed : ¬(call.loop env st difficulty).ok = true :=
      mt (ok_cloudLoop_iff env st difficulty rounds rentalFee maintenanceFee).mp all
    have nothing : cloudCredits env st difficulty rounds rentalFee maintenanceFee = [] :=
      if_neg failed
    rw [nothing, exactSum_nil]
    exact iff_of_true (by omega) (Or.inl all)

/-- One round of rental with fees of 7 for one pending block. -/
theorem cloud_issues_at_most_rewards_iff_sample :
    let st := Sample.onePending .account
    IssuesAtMostRewards Sample.env st 1 1 5 2 ↔
      ¬AllConfirmable Sample.env 1 st ∨
      ¬st.ledger.HasRoomAfter (paidStudents st.pool.blocks) cloudUser ∨
      ((1 : Int32).toInt * exactNet st.pool.blocks.length 5 2).bmod (2 ^ 32) ≤
        20 * (st.pool.blocks.length : Int) :=
  cloud_issues_at_most_rewards_iff Sample.env (Sample.onePending .account) 1 1 5 2
    (by decide +kernel) (by decide)

/-- Two rounds without fees earn the reward of the one pending block twice. -/
theorem two_rounds_issue_twice :
    let st := Sample.onePending .account
    let result := miningCloud Sample.env st 1 2 0 0
    st.pool.blocks.length = 1 ∧ result.ok = true ∧
    result.state.chain.blocks.length = st.chain.blocks.length + 1 ∧
    cloudCredits Sample.env st 1 2 0 0 = [40] ∧
    (ledgerBalance st.ledger cloudUser).toInt = 0 ∧
    (ledgerBalance result.state.ledger cloudUser).toInt = 40 ∧
    ¬IssuesAtMostRewards Sample.env st 1 2 0 0 := by
  decide +kernel

end Attendance
