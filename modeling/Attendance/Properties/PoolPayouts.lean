import Attendance.Payouts
import Attendance.PoolSplit
import Attendance.Room
import Attendance.Sample

/-!
# What a pool pays for unconfirmed blocks

`mining_pool` pays its miners for all pending blocks before it mines the first one. What it
has paid is covered by confirmed blocks exactly if enough of the rounds that follow succeed.
-/
namespace Attendance

open CText MachineInt Calls

/-- A credit for which there is room takes one vacancy, unless the id is known, and makes no
other id known. -/
private theorem vacancies_ledgerCreditMiner (env : Env) {ledger : Ledger} {id : List Char}
    {amount : Int32} (positive : 0 < amount) (short : id.length < studentIdLen)
    (room : ledger.HasRoomFor id) :
    let after := (ledgerCreditMiner env ledger id amount).state
    after.vacancies = (if ledger.Knows id then ledger.vacancies else ledger.vacancies - 1) ∧
    ∀ other ≠ id, (after.Knows other ↔ ledger.Knows other) := by
  intro after
  obtain ⟨same, place⟩ := (creditStep_ledgerCreditMiner env ledger id positive).takesPlace short
  cases model : ledger.model with
  | utxo =>
    simp only [Ledger.HasRoomFor, model] at room same place
    simp only [after, Ledger.vacancies, Ledger.Knows, model, same, place, reduceCtorEq, false_and,
      if_false, implies_true, and_true]
    omega
  | account =>
    simp only [model] at same place
    rw [hasRoomFor_iff_vacancies] at room
    simp only [after, Ledger.vacancies, Ledger.Knows, model, same, true_and, ← length_keys,
      place] at room ⊢
    by_cases known : id ∈ ledger.accountLedger.keys
    · rw [Table.addKey, if_pos (Or.inl known), if_pos known]
      exact ⟨rfl, fun _ _ => Iff.rfl⟩
    -- a new row takes one of the places left
    · have vacant : ¬maxStudents ≤ ledger.accountLedger.keys.length := by
        have left := room.resolve_left known
        omega
      rw [Table.addKey, if_neg (not_or.mpr ⟨known, vacant⟩), if_neg known]
      refine ⟨by rw [List.length_append, List.length_singleton, Nat.sub_add_eq], ?_⟩
      intro other different
      rw [List.mem_append, List.mem_singleton, or_iff_left different]

/-! ### The payout loop -/

/-- The rewards and the ids they are for, from the miner after `paid` on. -/
def poolPayments (paid : Nat) : List Int32 → List (List Char × Int32)
  | [] => []
  | reward :: others => (poolMiner (paid + 1), reward) :: poolPayments (paid + 1) others

/-- The amounts of the calls of `ledger_credit_miner` that return true. -/
def creditsMade (env : Env) (ledger : Ledger) : List (List Char × Int32) → List (List Char × Int32)
  | [] => []
  | (minerId, reward) :: others =>
    let credited : Outcome Ledger :=
      if 0 < reward then ledgerCreditMiner env ledger minerId reward else ⟨false, ledger, false⟩
    let rest := creditsMade env credited.state others
    if credited.ok then (minerId, reward) :: rest else rest

/-- The payout loop leaves the ledger as these credits leave it. -/
theorem state_payPoolMiners (env : Env) (distributable totalAttempts : Int32) (ledger : Ledger)
    (paid : Nat) (attempts : List Int32) :
    (payPoolMiners env distributable totalAttempts ledger paid attempts).state =
      Runs.final (ledgerStep env) ledger
        ((creditsMade env ledger (poolPayments paid
          (attempts.map (poolShare distributable totalAttempts)))).map
            fun credit => .creditMiner credit.1 credit.2) := by
  induction attempts generalizing ledger paid with
  | nil => rfl
  | cons attempt others ih =>
    simp only [payPoolMiners, List.map_cons, poolPayments, creditsMade, ih]
    generalize poolShare distributable totalAttempts attempt = reward
    by_cases positive : 0 < reward
    · simp only [if_pos positive]
      by_cases room : ledger.HasRoomFor (poolMiner (paid + 1))
      · rw [if_pos ((ok_ledgerCreditMiner_iff env positive).mpr room)]
        rfl
      -- a credit that fails leaves no trace
      · rw [ledgerCreditMiner_of_full env reward room]
        rfl
    · simp only [if_neg positive]
      rfl

/-- The rewards there is room for, when a known id needs none. -/
def payable (known : List Char → Prop) [DecidablePred known] :
    Nat → List (List Char × Int32) → List Int32
  | _, [] => []
  | vacancies, (minerId, reward) :: others =>
    if reward ≤ 0 then payable known vacancies others
    else if known minerId then reward :: payable known vacancies others
    else
      match vacancies with
      | 0 => payable known 0 others
      | left + 1 => reward :: payable known left others

theorem payable_sublist (known : List Char → Prop) [DecidablePred known] (vacancies : Nat)
    (payments : List (List Char × Int32)) :
    (payable known vacancies payments).Sublist (payments.map Prod.snd) := by
  induction payments generalizing vacancies with
  | nil => exact List.Sublist.refl []
  | cons payment others ih =>
    simp only [payable, List.map_cons]
    split
    · exact (ih vacancies).cons _
    · split
      · exact (ih vacancies).cons_cons _
      · split
        · exact (ih 0).cons _
        · exact (ih _).cons_cons _

/-- Which credits succeed can be told from the ledger before the first. -/
theorem creditsMade_eq_payable (env : Env) (known : List Char → Prop) [DecidablePred known]
    (ledger : Ledger) (payments : List (List Char × Int32))
    (different : (payments.map Prod.fst).Nodup)
    (short : ∀ payment ∈ payments, payment.1.length < studentIdLen)
    (agrees : ∀ payment ∈ payments, (known payment.1 ↔ ledger.Knows payment.1)) :
    (creditsMade env ledger payments).map Prod.snd = payable known ledger.vacancies payments := by
  induction payments generalizing ledger with
  | nil => rfl
  | cons payment others ih =>
    obtain ⟨minerId, reward⟩ := payment
    rw [List.map_cons, List.nodup_cons] at different
    rw [List.forall_mem_cons] at short agrees
    simp only [creditsMade, payable]
    by_cases positive : 0 < reward
    · simp only [if_pos positive, if_neg (Int32.not_le.mpr positive)]
      by_cases room : ledger.HasRoomFor minerId
      -- the first payment takes a place of the ledger unless its miner has one
      · obtain ⟨left, others_known⟩ := vacancies_ledgerCreditMiner env positive short.1 room
        have rest := ih (ledgerCreditMiner env ledger minerId reward).state different.2 short.2
          (fun payment member => by
            rw [others_known payment.1 (fun same =>
              different.1 (same ▸ List.mem_map_of_mem member))]
            exact agrees.2 payment member)
        rw [if_pos ((ok_ledgerCreditMiner_iff env positive).mpr room), List.map_cons, rest, left]
        by_cases old : ledger.Knows minerId
        · rw [if_pos old, if_pos (agrees.1.mpr old)]
        · rw [if_neg old, if_neg (fun now => old (agrees.1.mp now))]
          have some_left := ((hasRoomFor_iff_vacancies ledger minerId).mp room).resolve_left old
          cases vacant : ledger.vacancies with
          | zero => omega
          | succ vacancies => rfl
      · rw [hasRoomFor_iff_vacancies, not_or] at room
        -- no place is left for a new miner, but the others may have a row already
        have refused := ledgerCreditMiner_of_full env reward
          (mt (hasRoomFor_iff_vacancies ledger minerId).mp (not_or.mpr room))
        have none_left : ledger.vacancies = 0 := by omega
        rw [refused, if_neg (fun now => room.1 (agrees.1.mp now))]
        simp only [Bool.false_eq_true, if_false, none_left]
        rw [ih ledger different.2 short.2 agrees.2, none_left]
    · simp only [if_neg positive, if_pos (Int32.not_lt.mp positive), Bool.false_eq_true, if_false]
      exact ih ledger different.2 short.2 agrees.2

private theorem ids_poolPayments (paid : Nat) (rewards : List Int32) :
    (poolPayments paid rewards).map Prod.fst =
      (List.range' (paid + 1) rewards.length).map poolMiner := by
  induction rewards generalizing paid with
  | nil => rfl
  | cons reward others ih => simp [poolPayments, ih, List.range'_succ]

private theorem rewards_poolPayments (paid : Nat) (rewards : List Int32) :
    (poolPayments paid rewards).map Prod.snd = rewards := by
  induction rewards generalizing paid with
  | nil => rfl
  | cons reward others ih => simp [poolPayments, ih]

/-- Up to eight miners have different ids, which fit a row. -/
private theorem ids_of_few {rewards : List Int32} (few : rewards.length ≤ 8) :
    ((poolPayments 0 rewards).map Prod.fst).Nodup ∧
    ∀ payment ∈ poolPayments 0 rewards, payment.1.length < studentIdLen := by
  have names : ∀ a < 9, ∀ b < 9, poolMiner a = poolMiner b → a = b := by decide
  have numbers {number : Nat} (member : number ∈ List.range' 1 rewards.length) : number < 9 := by
    have range := List.mem_range'_1.mp member
    omega
  constructor
  · rw [ids_poolPayments]
    apply List.Nodup.map_on _ List.nodup_range'
    exact fun a first b second => names a (numbers first) b (numbers second)
  · intro payment member
    have id := List.mem_map_of_mem (f := Prod.fst) member
    rw [ids_poolPayments, List.mem_map] at id
    obtain ⟨number, inside, same⟩ := id
    have small := numbers inside
    rw [← same]
    exact length_poolMiner (by omega)

/-! ### The rounds after the payout -/

/-- Mining the front block does not look at the ledger. -/
private theorem mineFront_ledger (env : Env) (difficulty : Int32) (st : MineState)
    (ledger : Ledger) :
    mineFront env difficulty { st with ledger } =
      ({ (mineFront env difficulty st).1 with ledger }, (mineFront env difficulty st).2) := by
  unfold mineFront
  cases pendingRemoveFront st.pool with
  | none => rfl
  | some removed =>
    obtain ⟨front, pool⟩ := removed
    simp only
    cases prepareBlockForMining env st.world front st.chain with
    | mk world prepared =>
      cases prepared with
      | none => rfl
      | some prepared =>
        simp only
        cases mineBlockPow env prepared difficulty with
        | none => rfl
        | some mined =>
          obtain ⟨mined, tries⟩ := mined
          simp only
          obtain ⟨ok, ⟨world, chain⟩, overflow⟩ :=
            blockchainAppendMinedBlock env world st.chain mined
          cases ok <;> rfl

private theorem frontConfirmable_ledger (env : Env) (difficulty : Int32) (st : MineState)
    (ledger : Ledger) :
    FrontConfirmable env difficulty { st with ledger } ↔ FrontConfirmable env difficulty st := by
  constructor
  · rintro ⟨front, rest, queued, signs, inRange, nonce, append⟩
    exact ⟨front, rest, queued, signs, inRange, nonce, append⟩
  · rintro ⟨front, rest, queued, signs, inRange, nonce, append⟩
    exact ⟨front, rest, queued, signs, inRange, nonce, append⟩

/-- Which blocks can be confirmed does not depend on what has been paid. -/
private theorem eachRound_ledger (env : Env) (difficulty : Int32) (n : Nat) (st : MineState)
    (ledger : Ledger) :
    EachRound (confirmRound env difficulty (settleUnchecked env)) (FrontConfirmable env difficulty)
      n { st with ledger } ↔
    EachRound (confirmRound env difficulty (settleUnchecked env)) (FrontConfirmable env difficulty)
      n st := by
  induction n generalizing st ledger with
  | zero => exact Iff.rfl
  | succ n ih =>
    simp only [EachRound, frontConfirmable_ledger]
    apply and_congr_right
    intro _
    simp only [confirmRound, mineFront_ledger]
    cases mineFront env difficulty st with
    | mk st mined =>
      cases mined with
      | none => simp
      | some mined =>
        simp only [settleUnchecked_ok, true_implies]
        exact (ih st _).trans (ih st _).symm

/-! ### Payouts and confirmed blocks -/

/-- The rewards a call pays for, drawn when it starts. -/
def drawnPayments (env : Env) (st : MineState) (minerCount : Int32) :
    List (List Char × Int32) :=
  poolPayments 0 (poolRewards (pendingCount st.pool)
    (poolAttempts env (st.world.calls + 1) (poolMiners minerCount)))

/-- What is credited to the miners is at most `MINING_REWARD` for each block that the call
appends. -/
def PaysForConfirmed (env : Env) (st : MineState) (difficulty minerCount : Int32) : Prop :=
  let after := (miningPool env st difficulty minerCount).state
  exactSum ((creditsMade env st.ledger (drawnPayments env st minerCount)).map Prod.snd) ≤
    miningReward.toInt * (after.chain.blocks.length - st.chain.blocks.length : Nat)

instance (env : Env) (st : MineState) (difficulty minerCount : Int32) :
    Decidable (PaysForConfirmed env st difficulty minerCount) :=
  inferInstanceAs (Decidable (_ ≤ _))

/-- What the rewards that there is room for come to. -/
def poolDue (env : Env) (st : MineState) (minerCount : Int32) : Int :=
  exactSum (payable st.ledger.Knows st.ledger.vacancies (drawnPayments env st minerCount))

/-- The state of the call once `rand` is seeded and called for each miner. -/
def afterDraws (st : MineState) (minerCount : Int32) : MineState :=
  { st with world := { st.world with
      calls := st.world.calls + 1 + (poolMiners minerCount).toInt.toNat } }

/-- The number of blocks whose rewards cover an amount. -/
def blocksNeeded (amount : Int) : Nat := ((amount + 19) / 20).toNat

private theorem poolDue_le (env : Env) (st : MineState) (minerCount : Int32) :
    poolDue env st minerCount ≤ 20 * (st.pool.blocks.length : Int) := by
  have drawn := drawnFor_poolAttempts env (st.world.calls + 1) minerCount
  have few : pendingCount st.pool ≤ maxPending := st.pool.fits
  have fewer := payable_sublist st.ledger.Knows st.ledger.vacancies
    (drawnPayments env st minerCount)
  rw [drawnPayments, rewards_poolPayments] at fewer
  have part := exactSum_le_of_sublist fewer (fun _ member => drawn.nonneg_of_mem few member)
  exact (part.trans (drawn.sum_poolRewards_le few)).trans (poolDistributable_bounds few).2

/-- A pool call pays for no more than it confirms exactly if as many of its rounds can confirm
a block as the rewards it finds room for take. -/
theorem pool_pays_for_confirmed_iff (env : Env) (st : MineState) (difficulty minerCount : Int32)
    (pending : st.pool.blocks ≠ []) :
    PaysForConfirmed env st difficulty minerCount ↔
      EachRound (confirmRound env difficulty (settleUnchecked env))
        (FrontConfirmable env difficulty) (blocksNeeded (poolDue env st minerCount))
        (afterDraws st minerCount) := by
  have few : (poolRewards (pendingCount st.pool)
      (poolAttempts env (st.world.calls + 1) (poolMiners minerCount))).length ≤ 8 := by
    rw [poolRewards, List.length_map]
    exact length_poolAttempts_le env _ minerCount
  have paid : (creditsMade env st.ledger (drawnPayments env st minerCount)).map Prod.snd =
      payable st.ledger.Knows st.ledger.vacancies (drawnPayments env st minerCount) :=
    creditsMade_eq_payable env _ st.ledger _ (ids_of_few few).1 (ids_of_few few).2
      (fun _ _ => Iff.rfl)
  have covers := poolDue_le env st minerCount
  have needed : blocksNeeded (poolDue env st minerCount) ≤ st.pool.blocks.length := by
    rw [blocksNeeded]
    omega
  have settles : ∀ ledger block,
      ((MiningCall.pool minerCount).settle env ledger block).ok = true := settleUnchecked_ok env
  have accepted : ¬(MiningCall.pool minerCount).Rejected st := pending
  have chain : (miningPool env st difficulty minerCount).state.chain =
      ((MiningCall.pool minerCount).loop env st difficulty).state.chain :=
    (mine_of_accepted env difficulty accepted).1
  have grown := (loop_appends_iff env settles st difficulty (Nat.zero_le _)).mpr trivial
  -- the payouts come before the first round, but a round confirms the same blocks whatever is paid
  have draws : ((MiningCall.pool minerCount).start env st).state =
      { afterDraws st minerCount with
        ledger := ((MiningCall.pool minerCount).start env st).state.ledger } := by
    simp only [MiningCall.start, payPool, afterDraws, length_poolAttempts]
  rw [← eachRound_ledger env difficulty _ (afterDraws st minerCount)
    ((MiningCall.pool minerCount).start env st).state.ledger, ← draws]
  refine Iff.trans ?_ (loop_appends_iff env settles st difficulty needed)
  have value : (miningReward : Int32).toInt = 20 := rfl
  rw [PaysForConfirmed, paid, chain, value, blocksNeeded, poolDue]
  omega

/-- Four miners mine one block at the lowest difficulty. -/
theorem pool_pays_for_confirmed_iff_sample :
    let st := Sample.onePending .account
    PaysForConfirmed Sample.env st 1 4 ↔
      EachRound (confirmRound Sample.env 1 (settleUnchecked Sample.env))
        (FrontConfirmable Sample.env 1) (blocksNeeded (poolDue Sample.env st 4))
        (afterDraws st 4) :=
  pool_pays_for_confirmed_iff Sample.env (Sample.onePending .account) 1 4 (by decide +kernel)

/-- At difficulty 9 the miners are paid and no block is confirmed. -/
theorem pool_paid_without_blocks :
    let st := Sample.onePending .account
    let result := miningPool Sample.env st 9 4
    st.pool.blocks.length = 1 ∧ result.ok = false ∧ result.state.chain = st.chain ∧
    (creditsMade Sample.env st.ledger (drawnPayments Sample.env st 4)).map Prod.snd =
      [7, 3, 6, 2] ∧
    ¬PaysForConfirmed Sample.env st 9 4 := by
  decide +kernel

end Attendance
