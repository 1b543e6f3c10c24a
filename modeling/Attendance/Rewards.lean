import Attendance.Records
import Mathlib.Data.Int.Order.Basic

/-!
# Rewards

What mining pays to students. The balance of a student less the rewards on the chain
is kept by every round that finds room for the reward it owes, and falls in every
other round that confirms a block.
-/
namespace Attendance

open CText MachineInt Calls

/-- What a confirmed block pays to a student. -/
def rewardFor (studentId : List Char) (block : Block) : Int :=
  if block.studentId.text = studentId ∧ 0 < block.tokenReward then
    block.tokenReward.toInt - txFee.toInt
  else 0

/-- What confirmed blocks pay to a student. -/
def earned (studentId : List Char) (blocks : List Block) : Int :=
  (blocks.map (rewardFor studentId)).sum

@[simp] theorem earned_append (studentId : List Char) (xs ys : List Block) :
    earned studentId (xs ++ ys) = earned studentId xs + earned studentId ys := by
  simp [earned]

theorem rewardFor_record {left right : Block} (same : left.record = right.record)
    (studentId : List Char) : rewardFor studentId left = rewardFor studentId right := by
  simp only [Block.record, AttendanceRecord.mk.injEq] at same
  simp only [rewardFor, same]

/-- The ids that mining pays under, apart from those of students. -/
inductive MinerId : List Char → Prop where
  | solo : MinerId soloMiner
  | pool (number : Nat) (small : number < 1000) : MinerId (poolMiner number)
  | cloud : MinerId cloudUser

/-- A call pays under the fixed ids, and under the one `mining_solo` is called with. -/
inductive MiningCall.PaysMiner (call : MiningCall) : List Char → Prop where
  | fixed {studentId : List Char} (miner : MinerId studentId) : call.PaysMiner studentId
  | argument (minerId : List Char) (passed : call = .solo (some minerId)) :
      call.PaysMiner (CStr.strncpy minerId : CStr studentIdLen).text

/-! ### Payments to miners -/

theorem length_poolMiner {number : Nat} (small : number < 1000) :
    (poolMiner number).length < studentIdLen := by
  have digits := length_decimal_le (show 0 < 3 by decide) small
  have word : "POOL".toList.length = 4 := by decide
  unfold poolMiner
  simp only [List.length_append, List.length_replicate, word, studentIdLen]
  omega

/-- After defaulting and clamping there are between one and `MAX_POOL_MINERS` miners. -/
theorem poolMiners_bounds (minerCount : Int32) :
    1 ≤ (poolMiners minerCount).toInt ∧ (poolMiners minerCount).toInt ≤ 8 := by
  have eight : (maxPoolMiners : Int32).toInt = 8 := rfl
  have positive : 0 < (if 0 < minerCount then minerCount else 4).toInt := by
    split
    next asked => exact Int32.lt_iff_toInt_lt.mp asked
    next => decide
  simp only [poolMiners]
  generalize (if 0 < minerCount then minerCount else 4) = miners at positive
  split
  next => rw [eight]; omega
  next within =>
    have below := Int32.le_iff_toInt_le.mp (Int32.not_lt.mp within)
    omega

theorem length_poolAttempts (env : Env) (calls : Nat) (miners : Int32) :
    (poolAttempts env calls miners).length = miners.toInt.toNat := by
  rw [poolAttempts, List.length_map, List.length_range]

theorem length_poolAttempts_le (env : Env) (calls : Nat) (minerCount : Int32) :
    (poolAttempts env calls (poolMiners minerCount)).length ≤ 8 := by
  have few := poolMiners_bounds minerCount
  rw [length_poolAttempts]
  omega

private theorem exactBalance_payPoolMiners (env : Env) (distributable totalAttempts : Int32)
    (ledger : Ledger) (paid : Nat) (attempts : List Int32) (few : paid + attempts.length < 1000)
    {studentId : List Char} (other : ∀ number < 1000, studentId ≠ poolMiner number) :
    (payPoolMiners env distributable totalAttempts ledger paid attempts).state.exactBalance
      studentId = ledger.exactBalance studentId := by
  induction attempts generalizing ledger paid with
  | nil => rfl
  | cons attempt others ih =>
    rw [List.length_cons] at few
    simp only [payPoolMiners]
    -- whatever this miner gets, it is credited under the miner's own id
    rw [ih _ (paid + 1) (by omega)]
    generalize poolShare distributable totalAttempts attempt = reward
    split
    · apply exactBalance_ledgerCreditMiner_other env ledger
      rw [CStr.text_strncpy (length_poolMiner (by omega))]
      exact other (paid + 1) (by omega)
    · rfl

theorem exactBalance_start (env : Env) {call : MiningCall} (st : MineState)
    {studentId : List Char} (student : ¬call.PaysMiner studentId) :
    (call.start env st).state.ledger.exactBalance studentId =
      st.ledger.exactBalance studentId := by
  cases call with
  | solo | cloud => rfl
  | pool minerCount =>
    have few := length_poolAttempts_le env (st.world.calls + 1) minerCount
    apply exactBalance_payPoolMiners env _ _ st.ledger 0 _ (by omega)
    rintro number small rfl
    exact student (.fixed (.pool number small))

theorem exactBalance_finish (env : Env) {call : MiningCall} (blocksToMine : Nat)
    (ledger : Ledger) {studentId : List Char} (student : ¬call.PaysMiner studentId) :
    (call.finish env blocksToMine ledger).state.exactBalance studentId =
      ledger.exactBalance studentId := by
  cases call with
  | solo | pool => rfl
  | cloud =>
    simp only [MiningCall.finish, creditCloudUser]
    split
    · apply exactBalance_ledgerCreditMiner_other env ledger
      rw [CStr.text_strncpy (by decide)]
      rintro rfl
      exact student (.fixed .cloud)
    · rfl

/-! ### Payments to students -/

/-- The reward of a block is paid if there is room for it, and to nobody else. -/
theorem rewardPaid_cases (env : Env) (ledger : Ledger) {block : Block}
    (positive : 0 < block.tokenReward) :
    let paid := ledgerApplyConfirmedBlock ledger block (createRewardTransaction env block).2
    (ledger.HasRoomFor block.studentId.text ∧ paid.ok = true ∧
      (paid.overflow = false → ∀ studentId, paid.state.exactBalance studentId =
        ledger.exactBalance studentId + rewardFor studentId block)) ∨
    (¬ledger.HasRoomFor block.studentId.text ∧ paid = ⟨false, ledger, false⟩) := by
  intro paid
  rcases ledgerApplyConfirmedBlock_cases ledger positive
    (outputs_createRewardTransaction env positive) with ⟨room, ok, gains⟩ | full
  · left
    refine ⟨room, ok, ?_⟩
    intro inRange studentId
    apply (gains inRange studentId).trans
    rw [toInt_tokenReward_sub_txFee positive, rewardFor]
    by_cases owner : studentId = block.studentId.text
    · rw [if_pos owner, if_pos ⟨owner.symm, positive⟩]
      rfl
    · rw [if_neg owner, if_neg (fun owned => owner owned.1.symm)]
  · exact Or.inr full

theorem payReward_eq (env : Env) (ledger : Ledger) {block : Block}
    (large : 1 < block.tokenReward) :
    payReward env ledger block =
      ledgerApplyConfirmedBlock ledger block (createRewardTransaction env block).2 := by
  have positive : 0 < block.tokenReward := Int32.lt_trans (by decide) large
  rw [payReward, if_pos positive, createRewardTransaction_eq env large]

private theorem exactBalance_settleChecked (env : Env) {call : MiningCall}
    {minerId : Option (List Char)} (solo : call = .solo minerId) (ledger : Ledger)
    {studentId : List Char} (student : ¬call.PaysMiner studentId) :
    (ledgerCreditMiner env ledger (minerId.getD soloMiner) miningReward).state.exactBalance
      studentId = ledger.exactBalance studentId := by
  apply exactBalance_ledgerCreditMiner_other env ledger
  cases minerId with
  | none =>
    rw [Option.getD_none, CStr.text_strncpy (by decide)]
    rintro rfl
    exact student (.fixed .solo)
  | some minerId =>
    rintro rfl
    exact student (.argument minerId solo)

/-- Settling a block pays its reward to its student, unless there is no room for it. -/
theorem settle_cases (env : Env) (call : MiningCall) (ledger : Ledger) {block : Block}
    (large : 0 < block.tokenReward → 1 < block.tokenReward)
    (inRange : (call.settle env ledger block).overflow = false) :
    let settled := (call.settle env ledger block).state
    ((0 < block.tokenReward → ledger.HasRoomFor block.studentId.text) ∧
      ∀ studentId, ¬call.PaysMiner studentId → settled.exactBalance studentId =
        ledger.exactBalance studentId + rewardFor studentId block) ∨
    (0 < block.tokenReward ∧ ¬ledger.HasRoomFor block.studentId.text ∧ settled = ledger) := by
  by_cases positive : 0 < block.tokenReward
  · rcases rewardPaid_cases env ledger positive with ⟨room, ok, gains⟩ | ⟨full, result⟩
    · left
      refine ⟨fun _ => room, ?_⟩
      intro studentId student
      cases called : call with
      | solo minerId =>
        simp only [called, MiningCall.settle, settleChecked,
          payReward_eq env ledger (large positive), if_pos ok, Bool.or_eq_false_iff] at inRange ⊢
        exact (exactBalance_settleChecked env called _ student).trans (gains inRange.1 studentId)
      | pool | cloud =>
        simp only [called, MiningCall.settle, settleUnchecked, if_pos positive] at inRange ⊢
        exact gains inRange studentId
    · right
      refine ⟨positive, full, ?_⟩
      cases call with
      | solo minerId =>
        simp [MiningCall.settle, settleChecked, payReward_eq env ledger (large positive), result]
      | pool | cloud => simp [MiningCall.settle, settleUnchecked, positive, result]
  -- an absence pays nothing, and only the miner is credited
  · left
    refine ⟨fun owed => absurd owed positive, ?_⟩
    intro studentId student
    have nothing : rewardFor studentId block = 0 := if_neg (fun owed => positive owed.2)
    rw [nothing, Int.add_zero]
    cases called : call with
    | solo minerId =>
      simp only [MiningCall.settle, settleChecked, payReward, if_neg positive, if_true]
      exact exactBalance_settleChecked env called ledger student
    | pool | cloud => simp only [MiningCall.settle, settleUnchecked, if_neg positive]

/-! ### Agreement of the chain and the ledger -/

/-- What each student has beyond the rewards on the chain. -/
def MiningCall.beyondRewards (call : MiningCall) (st : MineState) :
    {studentId // ¬call.PaysMiner studentId} → Int :=
  fun studentId => st.ledger.exactBalance studentId - earned studentId st.chain.blocks

/-- If the round confirms the front block, the ledger has room for the reward it owes to a
student. -/
def MiningCall.PaysFront (env : Env) (difficulty : Int32) (call : MiningCall) (st : MineState) :
    Prop :=
  ∀ front ∈ st.pool.blocks.head?, Confirmable env difficulty st front → 0 < front.tokenReward →
    ¬call.PaysMiner front.studentId.text → st.ledger.HasRoomFor front.studentId.text

theorem large_of_consistent {env : Env} {registry : StudentRegistry} {block : Block}
    (consistent : Consistent env registry block) (positive : 0 < block.tokenReward) :
    1 < block.tokenReward := by
  rcases tokenRewardForStatus_cases block.status.text with large | nothing
  · rwa [consistent.tokenReward]
  · rw [consistent.tokenReward, nothing] at positive
    exact absurd positive Int32.lt_irrefl

private theorem rewardFor_pos {block : Block} (large : 1 < block.tokenReward) :
    0 < rewardFor block.studentId.text block := by
  have value : (1 : Int) < block.tokenReward.toInt := Int32.lt_iff_toInt_lt.mp large
  have one : (txFee : Int32).toInt = 1 := rfl
  rw [rewardFor, if_pos ⟨rfl, Int32.lt_trans (by decide) large⟩, one]
  omega

private theorem rewardFor_nonneg (studentId : List Char) (block : Block) :
    0 ≤ rewardFor studentId block := by
  rw [rewardFor]
  split
  next owed =>
    have value : (0 : Int) < block.tokenReward.toInt := Int32.lt_iff_toInt_lt.mp owed.2
    have one : (txFee : Int32).toInt = 1 := rfl
    omega
  next => exact Int.le_refl 0

/-- A round keeps what students have beyond their rewards exactly if it pays the block it
confirms. -/
theorem beyondRewards_round {env : Env} {registry : StudentRegistry} {difficulty : Int32}
    {call : MiningCall} {st : MineState}
    (filled : ∀ block ∈ st.pool.blocks, Consistent env registry block)
    (inRange : (call.round env difficulty st).overflow = false) :
    let after := (call.round env difficulty st).state
    call.beyondRewards after ≤ call.beyondRewards st ∧
    (call.beyondRewards after = call.beyondRewards st ↔ call.PaysFront env difficulty st) := by
  have step := call.roundStep env difficulty st
  generalize call.round env difficulty st = result at inRange step ⊢
  cases step with
  | idle empty =>
    exact ⟨le_refl _, iff_of_true rfl (by simp [MiningCall.PaysFront, empty])⟩
  | @lost front world pool queued unconfirmable =>
    have pays : call.PaysFront env difficulty st := by
      simp [MiningCall.PaysFront, queued, unconfirmable]
    exact ⟨le_refl _, iff_of_true rfl pays⟩
  | @confirmed front mined world chain pool queued confirmable mining appended =>
    -- the chain grows by the reward of the front block; whether the ledger does is the question
    have consistent := filled front (by simp [queued])
    have record := mining.record
    have minedConsistent := Consistent.of_record record.symm consistent
    have owner : mined.studentId = front.studentId := congrArg AttendanceRecord.studentId record
    have reward : mined.tokenReward = front.tokenReward :=
      congrArg AttendanceRecord.tokenReward record
    have grown (studentId : List Char) : earned studentId chain.blocks =
        earned studentId st.chain.blocks + rewardFor studentId front := by
      rw [appended, earned_append, ← rewardFor_record record]
      simp [earned]
    have pays_iff : call.PaysFront env difficulty st ↔ (0 < front.tokenReward →
        ¬call.PaysMiner front.studentId.text → st.ledger.HasRoomFor front.studentId.text) := by
      simp [MiningCall.PaysFront, queued, confirmable]
    rw [pays_iff]
    rcases settle_cases env call st.ledger (large_of_consistent minedConsistent) inRange with
      ⟨room, paid⟩ | ⟨positive, full, unpaid⟩
    · have same : call.beyondRewards ⟨world, chain, pool, (call.settle env st.ledger mined).state⟩ =
          call.beyondRewards st := by
        funext studentId
        simp only [MiningCall.beyondRewards, paid _ studentId.2, grown, rewardFor_record record]
        omega
      rw [reward, owner] at room
      exact ⟨le_of_eq same, iff_of_true same (fun positive _ => room positive)⟩
    · rw [reward] at positive
      rw [owner] at full
      have lower (studentId) : call.beyondRewards
          ⟨world, chain, pool, (call.settle env st.ledger mined).state⟩ studentId =
            call.beyondRewards st studentId - rewardFor studentId front := by
        simp only [MiningCall.beyondRewards, unpaid, grown]
        omega
      -- the student of an unpaid block falls behind, unless it is itself a miner
      refine ⟨?_, ?_, ?_⟩
      · intro studentId
        rw [lower]
        exact Int.sub_le_self _ (rewardFor_nonneg studentId front)
      · intro same positive student
        have owed := rewardFor_pos (large_of_consistent consistent positive)
        have kept : call.beyondRewards st ⟨_, student⟩ - rewardFor front.studentId.text front =
            call.beyondRewards st ⟨_, student⟩ := (lower _).symm.trans (congrFun same _)
        omega
      · intro pays
        funext studentId
        have other : front.studentId.text ≠ studentId :=
          fun same => full (pays positive (same ▸ studentId.2))
        rw [lower, rewardFor, if_neg (fun owed => other owed.1), Int.sub_zero]

private theorem consistent_round {env : Env} {registry : StudentRegistry} (difficulty : Int32)
    (call : MiningCall) {st : MineState}
    (filled : ∀ block ∈ st.pool.blocks, Consistent env registry block) :
    ∀ block ∈ (call.round env difficulty st).state.pool.blocks, Consistent env registry block := by
  rw [MiningCall.round, pool_confirmRound]
  intro block member
  exact filled block (List.mem_of_mem_tail member)

/-- Each round of the call pays the block it confirms. -/
def MiningCall.PaysEach (env : Env) (st : MineState) (difficulty : Int32) (call : MiningCall) :
    Prop :=
  ¬call.Rejected st →
    EachRound (call.round env difficulty) (call.PaysFront env difficulty) st.pool.blocks.length
      (call.start env st).state

/-- A mining call lowers what students have beyond their rewards or keeps it. -/
theorem beyondRewards_mine_cases {env : Env} {registry : StudentRegistry} {st : MineState}
    {difficulty : Int32} {call : MiningCall}
    (filled : ∀ block ∈ st.pool.blocks, Consistent env registry block)
    (inRange : (mine env st difficulty call).overflow = false) :
    call.beyondRewards (mine env st difficulty call).state ≤ call.beyondRewards st ∧
    (call.beyondRewards (mine env st difficulty call).state = call.beyondRewards st ↔
      call.PaysEach env st difficulty) := by
  by_cases rejected : call.Rejected st
  · simp [mine_of_rejected rejected, MiningCall.PaysEach, rejected]
  -- what a call does outside its loop concerns miners only
  · have started : call.beyondRewards (call.start env st).state = call.beyondRewards st := by
      funext studentId
      simp only [MiningCall.beyondRewards, exactBalance_start env st studentId.2,
        MiningCall.chain_start]
    have finished : call.beyondRewards (mine env st difficulty call).state =
        call.beyondRewards (call.loop env st difficulty).state := by
      funext studentId
      simp only [MiningCall.beyondRewards, mine_eq, if_neg rejected]
      split
      · simp only [exactBalance_finish env _ _ studentId.2]
      · rfl
    have within : (call.loop env st difficulty).overflow = false := by
      rw [mine_eq, if_neg rejected] at inRange
      simp only at inRange
      split at inRange
      next => exact (Bool.or_eq_false_iff.mp (Bool.or_eq_false_iff.mp inRange).1).2
      next => exact (Bool.or_eq_false_iff.mp inRange).2
    rw [finished, ← started, MiningCall.PaysEach]
    simp only [rejected, not_false_eq_true, true_implies]
    exact repeatFor_eq_iff (call.round env difficulty) call.beyondRewards (· ≤ ·) le_refl le_trans
      le_antisymm (fun st => ∀ block ∈ st.pool.blocks, Consistent env registry block)
      (fun st _ filled => consistent_round difficulty call filled)
      (fun st inRange filled => (beyondRewards_round filled inRange).1)
      (fun st inRange filled => (beyondRewards_round filled inRange).2)
      (by rwa [MiningCall.pool_start]) (eachRound_of_inRange within)

/-- A mining call keeps what students have beyond their rewards exactly if each of its
rounds pays the block it confirms. -/
theorem beyondRewards_mine {env : Env} {registry : StudentRegistry} {st : MineState}
    {difficulty : Int32} {call : MiningCall}
    (filled : ∀ block ∈ st.pool.blocks, Consistent env registry block)
    (inRange : (mine env st difficulty call).overflow = false) :
    call.beyondRewards (mine env st difficulty call).state = call.beyondRewards st ↔
      call.PaysEach env st difficulty :=
  (beyondRewards_mine_cases filled inRange).2

end Attendance
