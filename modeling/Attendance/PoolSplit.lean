import Attendance.Foundation.Shares
import Attendance.Rewards
import Mathlib.Algebra.BigOperators.Ring.Finset

/-!
# The split of a pool

What `mining_pool` hands out, in exact numbers: the distributable reward, the attempts drawn
for the miners, and each miner's share of the one by the other.
-/
namespace Attendance

open CText MachineInt Calls

/-- The attempts of the effective miners, within the range of `50 + (rand() % 151)`. -/
structure DrawnFor (minerCount : Int32) (attempts : List Int32) : Prop where
  each : attempts.length = (poolMiners minerCount).toInt.toNat
  range : ∀ attempt ∈ attempts, 50 ≤ attempt.toInt ∧ attempt.toInt ≤ 200

theorem drawnFor_poolAttempts (env : Env) (calls : Nat) (minerCount : Int32) :
    DrawnFor minerCount (poolAttempts env calls (poolMiners minerCount)) := by
  refine ⟨length_poolAttempts env calls _, ?_⟩
  intro attempt member
  obtain ⟨i, _, rfl⟩ := List.mem_map.mp member
  have small : env.rand (calls + i) % 151 < 151 := Nat.mod_lt _ (by decide)
  have drawn :
      (Int32.ofNat (env.rand (calls + i) % 151)).toInt = (env.rand (calls + i) % 151 : Nat) :=
    Int32.toInt_ofNat_of_lt (by omega)
  have fifty : (50 : Int32).toInt = 50 := rfl
  have fits : addOverflows 50 (Int32.ofNat (env.rand (calls + i) % 151)) = false := by
    rw [addOverflows_eq_false_iff, drawn, fifty]
    constructor <;> omega
  rw [toInt_add_of_fits fits, drawn, fifty]
  omega

/-! ### The distributable reward -/

theorem toInt_ofNat_of_pending {blocksToMine : Nat} (few : blocksToMine ≤ maxPending) :
    (Int32.ofNat blocksToMine).toInt = blocksToMine :=
  Int32.toInt_ofNat_of_lt (by simp only [maxPending] at few; omega)

/-- None of the steps to the distributable reward overflows, and two percent go to the pool. -/
theorem poolDistributable_exact {blocksToMine : Nat} (few : blocksToMine ≤ maxPending) :
    let grossReward := Int32.ofNat blocksToMine * miningReward
    let poolFee := grossReward * poolFeePercent / 100
    mulOverflows (Int32.ofNat blocksToMine) miningReward = false ∧
    mulOverflows grossReward poolFeePercent = false ∧ subOverflows grossReward poolFee = false ∧
    (poolDistributable blocksToMine).toInt =
      20 * (blocksToMine : Int) - 40 * (blocksToMine : Int) / 100 := by
  intro grossReward poolFee
  have count := toInt_ofNat_of_pending few
  have reward : (miningReward : Int32).toInt = 20 := rfl
  have percent : (poolFeePercent : Int32).toInt = 2 := rfl
  have hundred : (100 : Int32).toInt = 100 := rfl
  simp only [maxPending] at few
  have gross : mulOverflows (Int32.ofNat blocksToMine) miningReward = false := by
    rw [mulOverflows_eq_false_iff, count, reward]
    constructor <;> omega
  have grossValue : grossReward.toInt = blocksToMine * 20 := by
    rw [toInt_mul_of_fits gross, count, reward]
  have fee : mulOverflows grossReward poolFeePercent = false := by
    rw [mulOverflows_eq_false_iff, grossValue, percent]
    constructor <;> omega
  have feeValue : poolFee.toInt = blocksToMine * 20 * 2 / 100 := by
    rw [toInt_div_of_pos _ (by rw [hundred]; decide), toInt_mul_of_fits fee, grossValue, percent,
      hundred]
    exact Int.tdiv_eq_ediv_of_nonneg (by omega)
  have rest : subOverflows grossReward poolFee = false := by
    rw [subOverflows_eq_false_iff, grossValue, feeValue]
    constructor <;> omega
  refine ⟨gross, fee, rest, ?_⟩
  have value : (poolDistributable blocksToMine).toInt = grossReward.toInt - poolFee.toInt :=
    toInt_sub_of_fits rest
  rw [value, grossValue, feeValue]
  omega

theorem poolDistributable_bounds {blocksToMine : Nat} (few : blocksToMine ≤ maxPending) :
    0 ≤ (poolDistributable blocksToMine).toInt ∧
    (poolDistributable blocksToMine).toInt ≤ 20 * (blocksToMine : Int) := by
  rw [(poolDistributable_exact few).2.2.2]
  omega

/-! ### The shares -/

section Shares

variable {minerCount : Int32} {attempts : List Int32}

/-- The weights of the miners. -/
def weights (attempts : List Int32) : List Nat := attempts.map (·.toInt.toNat)

theorem DrawnFor.exactSum_eq (drawn : DrawnFor minerCount attempts) :
    exactSum attempts = (weights attempts).sum := by
  have exact' : attempts.map Int32.toInt = (weights attempts).map Nat.cast := by
    rw [weights, List.map_map]
    apply List.map_congr_left
    intro attempt member
    have range := drawn.range attempt member
    simp only [Function.comp_apply]
    omega
  rw [exactSum, exact', ← Nat.cast_list_sum]

/-- One to eight miners make between 50 and 1600 attempts. -/
theorem DrawnFor.exactSum_bounds (drawn : DrawnFor minerCount attempts) :
    50 ≤ exactSum attempts ∧ exactSum attempts ≤ 1600 := by
  have miners := poolMiners_bounds minerCount
  have each := drawn.each
  obtain ⟨low, high⟩ := MachineInt.exactSum_bounds drawn.range
  constructor <;> omega

theorem DrawnFor.toInt_sum (drawn : DrawnFor minerCount attempts) :
    attempts.sum.toInt = exactSum attempts := by
  obtain ⟨low, high⟩ := drawn.exactSum_bounds
  exact MachineInt.toInt_sum ⟨by omega, by omega⟩

variable {blocksToMine : Nat}

theorem DrawnFor.mul_fits (drawn : DrawnFor minerCount attempts) (few : blocksToMine ≤ maxPending)
    {attempt : Int32} (member : attempt ∈ attempts) :
    mulOverflows attempt (poolDistributable blocksToMine) = false := by
  obtain ⟨low, high⟩ := drawn.range attempt member
  obtain ⟨nonneg, most⟩ := poolDistributable_bounds few
  simp only [maxPending] at few
  rw [mulOverflows_eq_false_iff]
  have product := Int.mul_le_mul high (show _ ≤ (5120 : Int) by omega) nonneg (by omega)
  have positive := Int.mul_nonneg (show 0 ≤ attempt.toInt by omega) nonneg
  constructor <;> omega

/-- The reward of a miner is its proportional share, rounded down. -/
theorem DrawnFor.toInt_poolShare (drawn : DrawnFor minerCount attempts)
    (few : blocksToMine ≤ maxPending) {attempt : Int32} (member : attempt ∈ attempts) :
    (poolShare (poolDistributable blocksToMine) attempts.sum attempt).toInt =
      Shares.share (poolDistributable blocksToMine).toInt.toNat (weights attempts).sum
        attempt.toInt.toNat := by
  obtain ⟨low, _⟩ := drawn.range attempt member
  obtain ⟨nonneg, _⟩ := poolDistributable_bounds few
  have total := drawn.toInt_sum
  have positive : 0 < attempts.sum.toInt := by
    have bounds := drawn.exactSum_bounds
    omega
  have nonzero : attempts.sum ≠ 0 := by
    intro zero
    rw [zero] at positive
    exact absurd positive (by decide)
  rw [poolShare, if_neg nonzero, toInt_div_of_pos _ positive,
    toInt_mul_of_fits (drawn.mul_fits few member), total, drawn.exactSum_eq, Shares.share,
    Int.natCast_ediv, Int.natCast_mul, Int.toNat_of_nonneg nonneg,
    Int.toNat_of_nonneg (show 0 ≤ attempt.toInt by omega)]
  exact Int.tdiv_eq_ediv_of_nonneg (Int.mul_nonneg (by omega) nonneg)

/-- The rewards of the miners, in the order of the payout loop. -/
def poolRewards (blocksToMine : Nat) (attempts : List Int32) : List Int32 :=
  attempts.map (poolShare (poolDistributable blocksToMine) attempts.sum)

theorem DrawnFor.exactSum_poolRewards (drawn : DrawnFor minerCount attempts)
    (few : blocksToMine ≤ maxPending) :
    exactSum (poolRewards blocksToMine attempts) =
      (((weights attempts).map (Shares.share (poolDistributable blocksToMine).toInt.toNat
        (weights attempts).sum)).sum : Nat) := by
  rw [exactSum, poolRewards, Nat.cast_list_sum, weights, List.map_map, List.map_map, List.map_map]
  congr 1
  apply List.map_congr_left
  intro attempt member
  exact drawn.toInt_poolShare few member

theorem DrawnFor.nonneg_of_mem (drawn : DrawnFor minerCount attempts)
    (few : blocksToMine ≤ maxPending) {reward : Int32}
    (member : reward ∈ poolRewards blocksToMine attempts) : 0 ≤ reward.toInt := by
  obtain ⟨attempt, inside, rfl⟩ := List.mem_map.mp member
  rw [drawn.toInt_poolShare few inside]
  exact Int.natCast_nonneg _

theorem DrawnFor.sum_weights_pos (drawn : DrawnFor minerCount attempts) :
    0 < (weights attempts).sum := by
  have bounds := drawn.exactSum_bounds
  rw [drawn.exactSum_eq] at bounds
  omega

theorem DrawnFor.sum_poolRewards_le (drawn : DrawnFor minerCount attempts)
    (few : blocksToMine ≤ maxPending) :
    exactSum (poolRewards blocksToMine attempts) ≤ (poolDistributable blocksToMine).toInt := by
  have nonneg := (poolDistributable_bounds few).1
  have most := Shares.sum_share_le (poolDistributable blocksToMine).toInt.toNat
    drawn.sum_weights_pos
  rw [drawn.exactSum_poolRewards few]
  omega

end Shares

end Attendance
