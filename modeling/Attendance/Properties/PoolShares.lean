import Attendance.PoolSplit
import Attendance.Sample
import Mathlib.Algebra.Order.Ring.Nat

/-!
# Fair shares in a pool

Whatever the number of miners asked for and whatever attempts are drawn for them, the split
of the pool's reward stays within `int`, hands out no more than there is, and keeps back less
than one coin for each miner.
-/
namespace Attendance

open CText MachineInt

/-- No operation of the split leaves the range of `int`, and its divisor is positive. -/
structure SafeSplit (blocksToMine : Nat) (attempts : List Int32) : Prop where
  count : InInt blocksToMine
  gross : mulOverflows (Int32.ofNat blocksToMine) miningReward = false
  fee : mulOverflows (Int32.ofNat blocksToMine * miningReward) poolFeePercent = false
  distributable : subOverflows (Int32.ofNat blocksToMine * miningReward)
    (Int32.ofNat blocksToMine * miningReward * poolFeePercent / 100) = false
  totals : ∀ drawn attempt, drawn ++ [attempt] <+: attempts → addOverflows drawn.sum attempt = false
  divisor : 0 < attempts.sum
  products : ∀ attempt ∈ attempts, mulOverflows attempt (poolDistributable blocksToMine) = false

/-- The rewards lie between nothing and everything, follow the attempts, and add up to the
distributable reward but for less than one for each miner. -/
structure FairSplit (blocksToMine : Nat) (attempts : List Int32) : Prop where
  bounds : ∀ reward ∈ poolRewards blocksToMine attempts,
    0 ≤ reward ∧ reward ≤ poolDistributable blocksToMine
  monotone : ∀ attempt ∈ attempts, ∀ other ∈ attempts, other ≤ attempt →
    poolShare (poolDistributable blocksToMine) attempts.sum other ≤
      poolShare (poolDistributable blocksToMine) attempts.sum attempt
  sum_le : exactSum (poolRewards blocksToMine attempts) ≤ (poolDistributable blocksToMine).toInt
  rest_lt : (poolDistributable blocksToMine).toInt -
    exactSum (poolRewards blocksToMine attempts) < attempts.length

variable {minerCount : Int32} {attempts : List Int32} {blocksToMine : Nat}

/-- The attempts drawn so far add up to no more than all of them. -/
private theorem DrawnFor.total_fits (drawn : DrawnFor minerCount attempts) {before : List Int32}
    {attempt : Int32} (front : before ++ [attempt] <+: attempts) :
    addOverflows before.sum attempt = false := by
  have nonneg : ∀ x ∈ attempts, 0 ≤ x.toInt := fun x member => by
    have range := drawn.range x member
    omega
  have within := exactSum_le_of_sublist front.sublist nonneg
  have lower : 0 ≤ exactSum before := exactSum_nonneg
    (fun x member => nonneg x (front.subset (List.mem_append_left _ member)))
  have bounds := drawn.exactSum_bounds
  obtain ⟨low, high⟩ := drawn.range attempt (front.subset (by simp))
  simp only [exactSum_append, exactSum_cons, exactSum_nil] at within
  rw [addOverflows_eq_false_iff, MachineInt.toInt_sum ⟨by omega, by omega⟩]
  constructor <;> omega

private theorem safeSplit (drawn : DrawnFor minerCount attempts)
    (few : blocksToMine ≤ maxPending) : SafeSplit blocksToMine attempts := by
  obtain ⟨gross, fee, distributable, _⟩ := poolDistributable_exact few
  have bounds := drawn.exactSum_bounds
  refine ⟨?_, gross, fee, distributable, ?_, ?_, ?_⟩
  · simp only [maxPending] at few
    constructor <;> omega
  · exact fun before attempt front => drawn.total_fits front
  · rw [Int32.lt_iff_toInt_lt, drawn.toInt_sum, Int32.toInt_zero]
    omega
  · exact fun attempt member => drawn.mul_fits few member

private theorem fairSplit (drawn : DrawnFor minerCount attempts)
    (few : blocksToMine ≤ maxPending) : FairSplit blocksToMine attempts := by
  have nonneg := (poolDistributable_bounds few).1
  have part {attempt : Int32} (member : attempt ∈ attempts) :
      attempt.toInt.toNat ≤ (weights attempts).sum :=
    List.single_le_sum (fun _ _ => Nat.zero_le _) _ (List.mem_map_of_mem member)
  refine ⟨?_, ?_, drawn.sum_poolRewards_le few, ?_⟩
  · intro reward member
    have low := drawn.nonneg_of_mem few member
    obtain ⟨attempt, inside, rfl⟩ := List.mem_map.mp member
    have most := Shares.share_le (poolDistributable blocksToMine).toInt.toNat (part inside)
    rw [Int32.le_iff_toInt_le, Int32.le_iff_toInt_le, Int32.toInt_zero]
    refine ⟨low, ?_⟩
    rw [drawn.toInt_poolShare few inside]
    omega
  · intro attempt inside other inside' fewer
    have heavier := Int32.le_iff_toInt_le.mp fewer
    rw [Int32.le_iff_toInt_le, drawn.toInt_poolShare few inside, drawn.toInt_poolShare few inside',
      Int.ofNat_le]
    exact Shares.share_mono (by omega)
  · have least := Shares.lt_sum_share_add_length (poolDistributable blocksToMine).toInt.toNat
      drawn.sum_weights_pos
    rw [drawn.exactSum_poolRewards few]
    rw [weights, List.length_map, ← weights] at least
    omega

/-- There are one to eight miners, and for every outcome of the draw the split of the reward
is safe and fair. -/
theorem pool_split_safe_fair (minerCount : Int32) (blocksToMine : Nat) (attempts : List Int32)
    (few : blocksToMine ≤ maxPending) (drawn : DrawnFor minerCount attempts) :
    (1 ≤ attempts.length ∧ attempts.length ≤ 8) ∧ SafeSplit blocksToMine attempts ∧
      FairSplit blocksToMine attempts := by
  have miners := poolMiners_bounds minerCount
  have each := drawn.each
  exact ⟨by omega, safeSplit drawn few, fairSplit drawn few⟩

/-- Three miners with 50, 120 and 200 attempts share the reward for 2 blocks. -/
theorem pool_split_safe_fair_sample :
    (1 ≤ [(50 : Int32), 120, 200].length ∧ [(50 : Int32), 120, 200].length ≤ 8) ∧
      SafeSplit 2 [50, 120, 200] ∧ FairSplit 2 [50, 120, 200] := by
  refine pool_split_safe_fair 3 2 [50, 120, 200] (by decide) ⟨rfl, ?_⟩
  simp only [List.forall_mem_cons, List.not_mem_nil, false_implies, implies_true, and_true]
  decide

end Attendance
