import Attendance.Ledger.Basic
import Attendance.Pending

/-!
# Mining

The three modes of `mining.c`. They confirm pending blocks one after the other in
loops that differ in how the ledger is credited after a block is appended.
-/
namespace Attendance

open CText MachineInt Calls

/-- What a mining call works on. -/
@[ext] structure MineState where
  world : World
  chain : Blockchain
  pool : PendingPool
  ledger : Ledger

/-- The assignments of `prepare_block_for_mining`. -/
def linkBlock (block : Block) (chain : Blockchain) : Block :=
  let tip := blockchainTip chain
  -- the index and the previous hash of `mark_attendance` were tentative
  { block with
    index := match tip with
      | none => 0
      | some tip => tip.index + 1
    previousHash := .strncpy ((tip.map Block.hash).getD genesisPrevHash).text
    nonce := 0 }

def prepareBlockForMining (env : Env) (world : World) (block : Block) (chain : Blockchain) :
    World × Option Block :=
  signBlock env world (linkBlock block chain)

/-- The first half of a round, the same in `confirm_pending_block`, `mining_pool` and
`mining_cloud`: the front block leaves the pool, is linked, signed, mined and
appended, and comes with the attempts it took. `none` is one of the four early returns. -/
def mineFront (env : Env) (difficulty : Int32) (st : MineState) :
    MineState × Option (Block × UInt64) :=
  match pendingRemoveFront st.pool with
  | none => (st, none)
  | some (front, pool) =>
    -- the pool is not given back its block when one of these fails
    match prepareBlockForMining env st.world front st.chain with
    | (world, none) => ({ st with world, pool }, none)
    | (world, some prepared) =>
      match mineBlockPow env prepared difficulty with
      | none => ({ st with world, pool }, none)
      | some (mined, attempts) =>
        match blockchainAppendMinedBlock env world st.chain mined with
        | ⟨false, (world, chain), _⟩ => ({ st with world, chain, pool }, none)
        | ⟨true, (world, chain), _⟩ => ({ st with world, chain, pool }, some (mined, attempts))

/-- The reward of an appended block in `confirm_pending_block`. -/
def payReward (env : Env) (ledger : Ledger) (block : Block) : Outcome Ledger :=
  if 0 < block.tokenReward then
    match createRewardTransaction env block with
    | (false, _) => ⟨false, ledger, false⟩
    | (true, tx) => ledgerApplyConfirmedBlock ledger block tx
  else ⟨true, ledger, false⟩

/-- The second half of a round in `confirm_pending_block`: every failure is returned. -/
def settleChecked (env : Env) (minerId : List Char) (ledger : Ledger) (block : Block) :
    Outcome Ledger :=
  let paid := payReward env ledger block
  if paid.ok then
    -- `MINING_REWARD > 0` and `miner_id != NULL` hold in every call
    let credited := ledgerCreditMiner env paid.state minerId miningReward
    ⟨credited.ok, credited.state, paid.overflow || credited.overflow⟩
  else paid

/-- The second half of a round in `mining_pool` and `mining_cloud`: the results of both
calls are dropped. -/
def settleUnchecked (env : Env) (ledger : Ledger) (block : Block) : Outcome Ledger :=
  if 0 < block.tokenReward then
    -- what `create_reward_transaction` left is applied, whatever it returned
    let applied := ledgerApplyConfirmedBlock ledger block (createRewardTransaction env block).2
    ⟨true, applied.state, applied.overflow⟩
  else ⟨true, ledger, false⟩

/-- One round of a mining loop. -/
def confirmRound (env : Env) (difficulty : Int32) (settle : Ledger → Block → Outcome Ledger)
    (st : MineState) : Outcome MineState :=
  match mineFront env difficulty st with
  | (st, none) => ⟨false, st, false⟩
  | (st, some (block, _)) =>
    let settled := settle st.ledger block
    ⟨settled.ok, { st with ledger := settled.state }, settled.overflow⟩

/-- `confirm_pending_block`, less the attempt counter it prints. -/
def confirmPendingBlock (env : Env) (difficulty : Int32) (minerId : List Char) (st : MineState) :
    Outcome MineState :=
  confirmRound env difficulty (settleChecked env minerId) st

def soloMiner : List Char := "SOLO_MINER".toList

def cloudUser : List Char := "CLOUD_USER".toList

/-- `snprintf(miner_id, sizeof(miner_id), "POOL%03d", number)`. -/
def poolMiner (number : Nat) : List Char :=
  let digits := decimal number
  "POOL".toList ++ List.replicate (3 - digits.length) '0' ++ digits

def miningSolo (env : Env) (st : MineState) (difficulty : Int32) (minerId : Option (List Char)) :
    Outcome MineState :=
  if pendingIsEmpty st.pool then ⟨false, st, false⟩
  else
    repeatWhile (confirmPendingBlock env difficulty (minerId.getD soloMiner))
      (fun st => pendingIsEmpty st.pool) (pendingCount st.pool) st

/-- The effective number of miners after defaulting and clamping. -/
def poolMiners (minerCount : Int32) : Int32 :=
  let miners := if 0 < minerCount then minerCount else 4
  if maxPoolMiners < miners then maxPoolMiners else miners

/-- `attempts[i] = 50 + (rand() % 151)` for each miner. -/
def poolAttempts (env : Env) (calls : Nat) (miners : Int32) : List Int32 :=
  (List.range miners.toInt.toNat).map fun i => 50 + Int32.ofNat (env.rand (calls + i) % 151)

/-- The reward of one miner in the payout loop. -/
def poolShare (distributable totalAttempts attempts : Int32) : Int32 :=
  if totalAttempts = 0 then 0 else attempts * distributable / totalAttempts

/-- The payout loop of `mining_pool`, from the miner after `paid` on. -/
def payPoolMiners (env : Env) (distributable totalAttempts : Int32) (ledger : Ledger)
    (paid : Nat) : List Int32 → Outcome Ledger
  | [] => ⟨true, ledger, false⟩
  | attempts :: others =>
    let reward := poolShare distributable totalAttempts attempts
    -- the result of the credit is dropped
    let credited : Outcome Ledger :=
      if 0 < reward then ledgerCreditMiner env ledger (poolMiner (paid + 1)) reward
      else ⟨true, ledger, false⟩
    let rest := payPoolMiners env distributable totalAttempts credited.state (paid + 1) others
    ⟨true, rest.state,
      mulOverflows attempts distributable || credited.overflow || rest.overflow⟩

/-- `gross_reward - pool_fee` for a number of pending blocks. -/
def poolDistributable (blocksToMine : Nat) : Int32 :=
  let grossReward := Int32.ofNat blocksToMine * miningReward
  let poolFee := grossReward * poolFeePercent / 100
  grossReward - poolFee

/-- The first half of `mining_pool`: one call of `time` seeds `rand`, which is called
once for each miner, and every miner is paid for all pending blocks. -/
def payPool (env : Env) (st : MineState) (minerCount : Int32) : Outcome MineState :=
  let attempts := poolAttempts env (st.world.calls + 1) (poolMiners minerCount)
  let world := { st.world with calls := st.world.calls + 1 + attempts.length }
  let paid := payPoolMiners env (poolDistributable (pendingCount st.pool)) attempts.sum st.ledger 0
    attempts
  ⟨true, { st with world, ledger := paid.state }, paid.overflow⟩

def miningPool (env : Env) (st : MineState) (difficulty minerCount : Int32) :
    Outcome MineState :=
  if pendingIsEmpty st.pool then ⟨false, st, false⟩
  else
    let blocksToMine := pendingCount st.pool
    -- the miners are paid before the first block is mined
    let paid := payPool env st minerCount
    let mined := repeatFor (confirmRound env difficulty (settleUnchecked env)) blocksToMine
      paid.state
    ⟨mined.ok, mined.state, paid.overflow || mined.overflow⟩

/-- The accumulators of the rental simulation and the warnings it prints. -/
structure CloudTotals where
  grossEarnings : Int32 := 0
  totalFees : Int32 := 0
  netProfit : Int32 := 0
  cumulativeGross : Int32 := 0
  cumulativeFees : Int32 := 0
  warnings : List Bool := []
  overflow : Bool := false

/-- One rental round. -/
def cloudRound (blocksToMine : Nat) (rentalFee maintenanceFee : Int32) (totals : CloudTotals) :
    CloudTotals :=
  let roundReward := miningReward * Int32.ofNat blocksToMine
  let roundFees := rentalFee + maintenanceFee
  let roundNet := roundReward - roundFees
  let cumulativeGross := totals.cumulativeGross + roundReward
  let cumulativeFees := totals.cumulativeFees + roundFees
  { grossEarnings := totals.grossEarnings + roundReward
    totalFees := totals.totalFees + roundFees
    netProfit := totals.netProfit + roundNet
    cumulativeGross
    cumulativeFees
    warnings := totals.warnings ++ [decide (cumulativeGross < cumulativeFees)]
    overflow := totals.overflow || mulOverflows miningReward (Int32.ofNat blocksToMine) ||
      addOverflows rentalFee maintenanceFee || subOverflows roundReward roundFees ||
      addOverflows totals.grossEarnings roundReward || addOverflows totals.totalFees roundFees ||
      addOverflows totals.netProfit roundNet ||
      addOverflows totals.cumulativeGross roundReward ||
      addOverflows totals.cumulativeFees roundFees }

def cloudRounds (blocksToMine : Nat) (rentalFee maintenanceFee : Int32) : Nat → CloudTotals
  | 0 => {}
  | rounds + 1 => cloudRound blocksToMine rentalFee maintenanceFee
      (cloudRounds blocksToMine rentalFee maintenanceFee rounds)

/-- The warning about the whole rental. -/
def CloudTotals.overallWarning (totals : CloudTotals) : Bool :=
  totals.grossEarnings < totals.totalFees

/-- The last lines of `mining_cloud`. -/
def creditCloudUser (env : Env) (ledger : Ledger) (netProfit : Int32) : Outcome Ledger :=
  if 0 < netProfit then ledgerCreditMiner env ledger cloudUser netProfit
  else ⟨true, ledger, false⟩

def miningCloud (env : Env) (st : MineState)
    (difficulty rounds rentalFee maintenanceFee : Int32) : Outcome MineState :=
  -- the rounds are checked before the pool
  if rounds < cloudMinRounds ∨ cloudMaxRounds < rounds then ⟨false, st, false⟩
  else if pendingIsEmpty st.pool then ⟨false, st, false⟩
  else
    let blocksToMine := pendingCount st.pool
    let totals := cloudRounds blocksToMine rentalFee maintenanceFee rounds.toInt.toNat
    let mined := repeatWhile (confirmRound env difficulty (settleUnchecked env))
      (fun st => pendingIsEmpty st.pool) blocksToMine st
    if mined.ok then
      let credited := creditCloudUser env mined.state.ledger totals.netProfit
      ⟨true, { mined.state with ledger := credited.state },
        totals.overflow || mined.overflow || credited.overflow⟩
    -- a loop that fails returns before the profit is credited
    else ⟨false, mined.state, totals.overflow || mined.overflow⟩

end Attendance
