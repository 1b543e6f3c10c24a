import Attendance.Rewards

/-!
# What solo mining counts

`confirm_pending_block` and `mining_solo` with the counters that are printed at the end.
-/
namespace Attendance

open CText Calls

/-- `confirm_pending_block` with the counter it is handed. -/
def confirmPendingBlockCounting (env : Env) (difficulty : Int32) (minerId : List Char)
    (st : MineState) (attemptsOut : UInt64) : Outcome (MineState × UInt64) :=
  match mineFront env difficulty st with
  | (st, none) => ⟨false, (st, attemptsOut), false⟩
  | (st, some (mined, attempts)) =>
    let settled := settleChecked env minerId st.ledger mined
    -- the attempts count only where the ledger has been settled as well
    ⟨settled.ok, ({ st with ledger := settled.state },
      if settled.ok then attemptsOut + attempts else attemptsOut), settled.overflow⟩

/-- What `mining_solo` works on and counts. -/
structure SoloRun where
  st : MineState
  totalAttempts : UInt64 := 0
  confirmed : Nat := 0

def soloRound (env : Env) (difficulty : Int32) (minerId : List Char) (run : SoloRun) :
    Outcome SoloRun :=
  let result := confirmPendingBlockCounting env difficulty minerId run.st run.totalAttempts
  ⟨result.ok, ⟨result.state.1, result.state.2,
    if result.ok then run.confirmed + 1 else run.confirmed⟩, result.overflow⟩

def miningSoloCounting (env : Env) (st : MineState) (difficulty : Int32)
    (minerId : Option (List Char)) : Outcome SoloRun :=
  if pendingIsEmpty st.pool then ⟨false, { st }, false⟩
  else
    repeatWhile (soloRound env difficulty (minerId.getD soloMiner))
      (fun run => pendingIsEmpty run.st.pool) (pendingCount st.pool) { st }

/-! ### Counting changes nothing -/

theorem confirmPendingBlock_eq (env : Env) (difficulty : Int32) (minerId : List Char)
    (st : MineState) (attemptsOut : UInt64) :
    confirmPendingBlock env difficulty minerId st =
      let counted := confirmPendingBlockCounting env difficulty minerId st attemptsOut
      ⟨counted.ok, counted.state.1, counted.overflow⟩ := by
  unfold confirmPendingBlock confirmRound confirmPendingBlockCounting
  cases mineFront env difficulty st with
  | mk after mined => cases mined <;> rfl

theorem pool_soloRound (env : Env) (difficulty : Int32) (minerId : List Char) (run : SoloRun) :
    (soloRound env difficulty minerId run).state.st.pool.blocks = run.st.pool.blocks.tail := by
  have plain := pool_confirmRound env difficulty (settleChecked env minerId) run.st
  rw [← confirmPendingBlock, confirmPendingBlock_eq env difficulty minerId run.st
    run.totalAttempts] at plain
  exact plain

/-- Without its counters this is `mining_solo`. -/
theorem miningSolo_eq (env : Env) (st : MineState) (difficulty : Int32)
    (minerId : Option (List Char)) :
    miningSolo env st difficulty minerId =
      ⟨(miningSoloCounting env st difficulty minerId).ok,
        (miningSoloCounting env st difficulty minerId).state.st,
        (miningSoloCounting env st difficulty minerId).overflow⟩ := by
  unfold miningSolo miningSoloCounting
  split
  · rfl
  · exact repeatWhile_view SoloRun.st
      (fun run => confirmPendingBlock_eq env difficulty _ run.st run.totalAttempts)
      (fun _ => rfl) (pendingCount st.pool) { st }

/-! ### What a round counts -/

private theorem tries_mineLoop {env : Env} {difficulty : Int32} {fuel : Nat}
    {block mined : Block} {tries : UInt64}
    (found : mineLoop env difficulty fuel block block.nonce = some (mined, tries)) :
    tries = mined.nonce + 1 := by
  induction fuel generalizing block with
  | zero => cases found
  | succ fuel ih =>
    simp only [mineLoop, computeBlockHash_eq] at found
    split at found
    · cases found
      rfl
    split at found
    · cases found
    · exact ih found

/-- The attempts run from nonce 0 to the one that is found. -/
theorem tries_mineBlockPow {env : Env} {block mined : Block} {difficulty : Int32}
    {tries : UInt64} (found : mineBlockPow env block difficulty = some (mined, tries)) :
    tries = mined.nonce + 1 := by
  unfold mineBlockPow at found
  split at found
  · cases found
  · exact tries_mineLoop found

/-- The block that is appended, with the attempts it took; the ledger is not looked at. -/
theorem mineFront_some {env : Env} {difficulty : Int32} {st after : MineState} {mined : Block}
    {attempts : UInt64} (front : mineFront env difficulty st = (after, some (mined, attempts))) :
    after.chain.blocks = st.chain.blocks ++ [mined] ∧ after.ledger = st.ledger ∧
      attempts = mined.nonce + 1 := by
  unfold mineFront at front
  split at front
  next => cases front
  next =>
    split at front
    next => cases front
    next world _ _ =>
      split at front
      next => cases front
      next found =>
        split at front
        next => cases front
        next append =>
          cases front
          refine ⟨?_, rfl, tries_mineBlockPow found⟩
          rcases blockchainAppendMinedBlock_cases env world st.chain mined with
            ⟨_, _, longer, grown, result⟩ | ⟨_, _, result⟩
          · rw [append] at result
            cases result
            exact grown
          · rw [append] at result
            cases result

/-- A block that is settled pays its student and its miner. -/
theorem gains_settleChecked {env : Env} {minerId : List Char}
    (short : minerId.length < studentIdLen) {ledger : Ledger} {block : Block}
    (settled : (settleChecked env minerId ledger block).ok = true)
    (inRange : (settleChecked env minerId ledger block).overflow = false)
    (studentId : List Char) :
    (settleChecked env minerId ledger block).state.exactBalance studentId =
      ledger.exactBalance studentId + rewardFor studentId block +
        if studentId = minerId then miningReward.toInt else 0 := by
  have paid : (payReward env ledger block).ok = true := by
    by_contra unpaid
    simp only [settleChecked, if_neg unpaid] at settled
    exact unpaid settled
  simp only [settleChecked, if_pos paid, Bool.or_eq_false_iff] at settled inRange ⊢
  have step := creditStep_ledgerCreditMiner env (payReward env ledger block).state minerId
    (show 0 < miningReward by decide)
  rw [step.gains short (step.ok_iff.mp settled) inRange.2 studentId]
  congr 1
  -- a block without a reward pays its student nothing
  by_cases positive : 0 < block.tokenReward
  · have outcome := rewardPaid_cases env ledger positive
    cases built : createRewardTransaction env block with
    | mk created tx =>
      cases created with
      | false => simp [payReward, positive, built] at paid
      | true =>
        rw [built] at outcome
        simp only [payReward, if_pos positive, built] at paid inRange ⊢
        rcases outcome with ⟨_, _, gains⟩ | ⟨_, failed⟩
        · exact gains inRange.1 studentId
        · rw [failed] at paid
          cases paid
  · have nothing : rewardFor studentId block = 0 := if_neg fun owed => positive owed.2
    rw [payReward, if_neg positive, nothing, Int.add_zero]

/-- A round that succeeds confirms the front block, and counts it and its attempts. -/
theorem soloRound_ok {env : Env} {difficulty : Int32} {minerId : List Char}
    (short : minerId.length < studentIdLen) {run : SoloRun}
    (ok : (soloRound env difficulty minerId run).ok = true)
    (inRange : (soloRound env difficulty minerId run).overflow = false) :
    let after := (soloRound env difficulty minerId run).state
    ∃ mined, after.st.chain.blocks = run.st.chain.blocks ++ [mined] ∧
      after.confirmed = run.confirmed + 1 ∧
      after.totalAttempts = run.totalAttempts + (mined.nonce + 1) ∧
      ∀ studentId, after.st.ledger.exactBalance studentId =
        run.st.ledger.exactBalance studentId + rewardFor studentId mined +
          if studentId = minerId then miningReward.toInt else 0 := by
  unfold soloRound confirmPendingBlockCounting at ok inRange ⊢
  cases front : mineFront env difficulty run.st with
  | mk after result =>
    cases result with
    | none => simp [front] at ok
    | some result =>
      obtain ⟨mined, attempts⟩ := result
      obtain ⟨grown, same, tries⟩ := mineFront_some front
      simp only [front, same] at ok inRange ⊢
      exact ⟨mined, grown, by simp [ok], by simp [ok, tries], gains_settleChecked short ok inRange⟩

end Attendance
