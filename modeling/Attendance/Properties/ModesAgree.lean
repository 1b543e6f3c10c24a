import Attendance.Payouts
import Attendance.Rewards
import Attendance.Sample

/-!
# The three modes confirm the same blocks

With room in the chain and in the ledger, solo, pool and cloud mining leave the same
chain, empty the pool, and pay every student the same. The rounds of two calls are
taken in step: they append the same block, whatever has been paid to miners so far.
-/
namespace Attendance

open CText MachineInt Calls

/-! ### Room in the ledger -/

/-- Room to settle a block for each of the owners, and to pay the solo miner for it. -/
structure Ledger.Ready (ledger : Ledger) (call : MiningCall) (owners : List (List Char)) :
    Prop where
  entries : ledger.model = .utxo →
    ledger.utxoSet.entries.length + 2 * owners.length ≤ maxUtxos
  rows : ledger.model = .account → ∀ owner ∈ owners, owner ∈ ledger.accountLedger.keys
  miner : ledger.model = .account → ∀ minerId, call = .solo minerId →
    soloMiner ∈ ledger.accountLedger.keys ∨ ledger.accountLedger.accounts.length < maxStudents

private theorem hasRoomFor_of_mem {ledger : Ledger} {owner : List Char}
    (model : ledger.model = .account)
    (room : owner ∈ ledger.accountLedger.keys ∨
      ledger.accountLedger.accounts.length < maxStudents) : ledger.HasRoomFor owner := by
  simp only [Ledger.HasRoomFor, model]
  exact room.imp_left position_ne_none_iff.mpr

private theorem Ledger.Ready.hasRoomFor {ledger : Ledger} {call : MiningCall} {owner : List Char}
    {owners : List (List Char)} (ready : ledger.Ready call (owner :: owners)) :
    ledger.HasRoomFor owner := by
  cases model : ledger.model with
  | utxo =>
    have few := ready.entries model
    simp only [Ledger.HasRoomFor, model]
    rw [List.length_cons] at few
    omega
  | account => exact hasRoomFor_of_mem model (Or.inl (ready.rows model owner List.mem_cons_self))

/-- The ledger once the reward of a block, if any, has been paid. -/
def paidLedger (env : Env) (ledger : Ledger) (block : Block) : Ledger :=
  if 0 < block.tokenReward then ledgerStep env ledger (.confirm block) else ledger

private theorem paidLedger_grows (env : Env) {ledger : Ledger} {block : Block}
    (row : ledger.model = .account → block.studentId.text ∈ ledger.accountLedger.keys) :
    (paidLedger env ledger block).model = ledger.model ∧
    (paidLedger env ledger block).utxoSet.entries.length ≤
      ledger.utxoSet.entries.length + 1 ∧
    (ledger.model = .account →
      (paidLedger env ledger block).accountLedger.keys = ledger.accountLedger.keys) := by
  unfold paidLedger
  split
  · obtain ⟨model, entries, keys⟩ := ledgerStep_grows env ledger (.confirm block) trivial
    refine ⟨model, entries, ?_⟩
    intro account
    rcases keys with same | ⟨id, known, absent, _⟩
    · exact same
    · rw [LedgerOp.ids, List.mem_singleton] at known
      exact absurd (known ▸ row account) absent
  · exact ⟨rfl, Nat.le_succ _, fun _ => rfl⟩

/-- The payment to the miner of a settled block. -/
def MiningCall.payMiner (env : Env) (ledger : Ledger) : MiningCall → Outcome Ledger
  | .solo minerId => ledgerCreditMiner env ledger (minerId.getD soloMiner) miningReward
  | .pool _ | .cloud _ _ _ => ⟨true, ledger, false⟩

/-- What settling a block comes to once there is room for its reward. -/
private theorem settle_of_room (env : Env) (call : MiningCall) {ledger : Ledger} {block : Block}
    (large : 0 < block.tokenReward → 1 < block.tokenReward)
    (room : 0 < block.tokenReward → ledger.HasRoomFor block.studentId.text) :
    (call.settle env ledger block).ok = (call.payMiner env (paidLedger env ledger block)).ok ∧
    (call.settle env ledger block).state =
      (call.payMiner env (paidLedger env ledger block)).state := by
  by_cases positive : 0 < block.tokenReward
  · have ok : (ledgerApplyConfirmedBlock ledger block (createRewardTransaction env block).2).ok =
        true := by
      rcases rewardPaid_cases env ledger positive with ⟨_, ok, _⟩ | ⟨full, _⟩
      · exact ok
      · exact absurd (room positive) full
    cases call with
    | solo minerId =>
      simp [MiningCall.settle, MiningCall.payMiner, settleChecked,
        payReward_eq env ledger (large positive), ok, paidLedger, positive, ledgerStep,
        LedgerOp.call]
    | pool | cloud =>
      simp [MiningCall.settle, MiningCall.payMiner, settleUnchecked, positive, paidLedger,
        ledgerStep, LedgerOp.call]
  -- without a reward only the miner is paid
  · cases call with
    | solo minerId =>
      simp [MiningCall.settle, MiningCall.payMiner, settleChecked, payReward, positive, paidLedger]
    | pool | cloud =>
      simp [MiningCall.settle, MiningCall.payMiner, settleUnchecked, positive, paidLedger]

/-- The miner can be paid, and that takes at most one entry, or a row of its own. -/
private theorem payMiner_grows (env : Env) {call : MiningCall} {ledger : Ledger}
    (named : ∀ minerId, call = .solo minerId → minerId.getD soloMiner = soloMiner)
    (entries : ledger.model = .utxo → ledger.utxoSet.entries.length < maxUtxos)
    (miner : ledger.model = .account → ∀ minerId, call = .solo minerId →
      soloMiner ∈ ledger.accountLedger.keys ∨
        ledger.accountLedger.accounts.length < maxStudents) :
    let paid := call.payMiner env ledger
    paid.ok = true ∧ paid.state.model = ledger.model ∧
    paid.state.utxoSet.entries.length ≤ ledger.utxoSet.entries.length + 1 ∧
    (∀ id ∈ ledger.accountLedger.keys, id ∈ paid.state.accountLedger.keys) ∧
    (ledger.model = .account → ∀ minerId, call = .solo minerId →
      soloMiner ∈ paid.state.accountLedger.keys ∨
        paid.state.accountLedger.accounts.length < maxStudents) := by
  cases call with
  | solo minerId =>
    simp only [MiningCall.payMiner, named minerId rfl]
    have room : ledger.HasRoomFor soloMiner := by
      cases model : ledger.model with
      | utxo =>
        simp only [Ledger.HasRoomFor, model]
        exact entries model
      | account => exact hasRoomFor_of_mem model (miner model minerId rfl)
    obtain ⟨model, more, keys⟩ :=
      ledgerStep_grows env ledger (.creditMiner soloMiner miningReward) trivial
    simp only [ledgerStep, LedgerOp.call, LedgerOp.ids, List.mem_singleton] at model more keys
    refine ⟨(ok_ledgerCreditMiner_iff env (by decide)).mpr room, model, more, ?_, ?_⟩
    · intro id known
      rcases keys with same | ⟨_, rfl, _, longer⟩
      · rwa [same]
      · rw [longer]
        exact List.mem_append_left _ known
    -- the first credit gives the solo miner a row, if it had none
    · intro account minerId solo
      rcases keys with same | ⟨_, rfl, _, longer⟩
      · rw [← length_keys, same, length_keys]
        exact miner account minerId solo
      · left
        rw [longer, CStr.text_strncpy (by decide)]
        exact List.mem_append_right _ (List.mem_singleton_self soloMiner)
  | pool | cloud => exact ⟨rfl, rfl, Nat.le_succ _, fun _ known => known, miner⟩

/-- Settling one of the blocks that there is room for leaves room for the others. -/
private theorem ready_settle (env : Env) {call : MiningCall} {ledger : Ledger} {block : Block}
    {owners : List (List Char)}
    (named : ∀ minerId, call = .solo minerId → minerId.getD soloMiner = soloMiner)
    (large : 0 < block.tokenReward → 1 < block.tokenReward)
    (ready : ledger.Ready call (block.studentId.text :: owners)) :
    (call.settle env ledger block).ok = true ∧
    (call.settle env ledger block).state.Ready call owners := by
  have room := ready.hasRoomFor
  obtain ⟨entries, rows, miner⟩ := ready
  have row : ledger.model = .account → block.studentId.text ∈ ledger.accountLedger.keys :=
    fun account => rows account _ List.mem_cons_self
  obtain ⟨model, more, keys⟩ := paidLedger_grows env row
  obtain ⟨ok, state⟩ := settle_of_room env call large (fun _ => room)
  -- the reward may have taken a place in the set, but leaves one for the miner
  have fewer : (paidLedger env ledger block).model = .utxo →
      (paidLedger env ledger block).utxoSet.entries.length < maxUtxos := by
    intro utxo
    have few := entries (model ▸ utxo)
    rw [List.length_cons] at few
    omega
  have free : (paidLedger env ledger block).model = .account → ∀ minerId, call = .solo minerId →
      soloMiner ∈ (paidLedger env ledger block).accountLedger.keys ∨
        (paidLedger env ledger block).accountLedger.accounts.length < maxStudents := by
    intro account
    rw [← length_keys, keys (model ▸ account), length_keys]
    exact miner (model ▸ account)
  obtain ⟨paid, model', more', kept, miner'⟩ := payMiner_grows env named fewer free
  rw [ok, state]
  refine ⟨paid, ?_, ?_, ?_⟩
  · intro utxo
    have few := entries (model ▸ model' ▸ utxo)
    rw [List.length_cons] at few
    omega
  · intro account owner member
    have account := model ▸ model' ▸ account
    exact kept _ (keys account ▸ rows account _ (List.mem_cons_of_mem _ member))
  · intro account
    exact miner' (model' ▸ account)

private theorem payPoolMiners_grows (env : Env) (distributable totalAttempts : Int32)
    (ledger : Ledger) (paid : Nat) (attempts : List Int32) :
    let after := (payPoolMiners env distributable totalAttempts ledger paid attempts).state
    after.model = ledger.model ∧
    after.utxoSet.entries.length ≤ ledger.utxoSet.entries.length + attempts.length ∧
    ∀ id ∈ ledger.accountLedger.keys, id ∈ after.accountLedger.keys := by
  induction attempts generalizing ledger paid with
  | nil => exact ⟨rfl, Nat.le_refl _, fun _ known => known⟩
  | cons attempt others ih =>
    simp only [payPoolMiners, List.length_cons]
    generalize poolShare distributable totalAttempts attempt = reward
    split
    -- each payment adds at most one output or row, and removes none
    · obtain ⟨model, entries, keys⟩ :=
        ledgerStep_grows env ledger (.creditMiner (poolMiner (paid + 1)) reward) trivial
      obtain ⟨model', entries', kept⟩ :=
        ih (ledgerCreditMiner env ledger (poolMiner (paid + 1)) reward).state (paid + 1)
      simp only [ledgerStep, LedgerOp.call] at model entries keys
      refine ⟨model'.trans model, by omega, ?_⟩
      intro id known
      apply kept id
      rcases keys with same | ⟨_, _, _, longer⟩
      · rwa [same]
      · rw [longer]
        exact List.mem_append_left _ known
    · obtain ⟨model, entries, kept⟩ := ih ledger (paid + 1)
      exact ⟨model, Nat.le_succ_of_le entries, kept⟩

/-- What a call does before its loop leaves room for the blocks it will confirm. -/
private theorem ready_start (env : Env) {st : MineState} {owners : List (List Char)}
    (call : MiningCall)
    (entries : st.ledger.model = .utxo →
      st.ledger.utxoSet.entries.length + 2 * owners.length + 8 ≤ maxUtxos)
    (rows : st.ledger.model = .account →
      (∀ owner ∈ owners, owner ∈ st.ledger.accountLedger.keys) ∧
        st.ledger.accountLedger.accounts.length < maxStudents) :
    (call.start env st).state.ledger.Ready call owners := by
  cases call with
  | solo | cloud =>
    refine ⟨?_, fun account => (rows account).1, fun account _ _ => Or.inr (rows account).2⟩
    intro utxo
    have few := entries utxo
    simp only [MiningCall.start]
    omega
  | pool minerCount =>
    -- the miners of a pool are paid first; they may fill the account table
    have few := length_poolAttempts_le env (st.world.calls + 1) minerCount
    simp only [MiningCall.start, payPool]
    generalize poolAttempts env (st.world.calls + 1) (poolMiners minerCount) = attempts at few
    obtain ⟨model, more, kept⟩ := payPoolMiners_grows env
      (poolDistributable (pendingCount st.pool)) attempts.sum st.ledger 0 attempts
    refine ⟨?_, ?_, fun _ _ solo => by cases solo⟩
    · intro utxo
      have room := entries (model ▸ utxo)
      omega
    · intro account owner member
      exact kept _ ((rows (model ▸ account)).1 owner member)

/-! ### Rounds in step -/

/-- What lets each round of a call succeed: room in the chain and in the ledger, and a
nonce for each pending block, whichever blocks come to stand before it. -/
structure ReadyToMine (env : Env) (registry : StudentRegistry) (difficulty : Int32)
    (call : MiningCall) (st : MineState) : Prop where
  chain : st.chain.blocks.length + st.pool.blocks.length ≤ maxBlocks
  nonces : ∀ front ∈ st.pool.blocks, ∀ chain : Blockchain, st.chain.blocks <+: chain.blocks →
    ∃ nonce, Meets env difficulty (linkBlock front chain) nonce
  filled : ∀ block ∈ st.pool.blocks, Consistent env registry block
  ledger : st.ledger.Ready call (st.pool.blocks.map fun block => block.studentId.text)

/-- Signing is a function of the block, and every save is complete. -/
structure Reliable (env : Env) (sign : Block → Block) : Prop where
  signs : ∀ world block, (signBlock env world block).2 = some (sign block)
  saves : ∀ call, env.write call = .complete

section Rounds

variable {env : Env} {registry : StudentRegistry} {difficulty : Int32} {sign : Block → Block}
  (inRange : DifficultyInRange difficulty) (reliable : Reliable env sign)
include inRange reliable

private theorem confirmable_of_ready {call : MiningCall} {st : MineState} {front : Block}
    {rest : List Block} (ready : ReadyToMine env registry difficulty call st)
    (queued : st.pool.blocks = front :: rest) : Confirmable env difficulty st front := by
  refine ⟨?_, inRange, ready.nonces front (by simp [queued]) st.chain List.prefix_rfl, ?_,
    reliable.saves _⟩
  · rw [reliable.signs]
    rfl
  · have room := ready.chain
    rw [queued, List.length_cons] at room
    omega

private theorem ready_round {call : MiningCall} {st : MineState}
    (named : ∀ minerId, call = .solo minerId → minerId.getD soloMiner = soloMiner)
    (ready : ReadyToMine env registry difficulty call st) (nonempty : st.pool.blocks ≠ []) :
    (call.round env difficulty st).ok = true ∧
    ReadyToMine env registry difficulty call (call.round env difficulty st).state := by
  have step := call.roundStep env difficulty st
  generalize call.round env difficulty st = result at step ⊢
  -- neither an empty pool nor a block that cannot be confirmed is possible here
  cases step with
  | idle empty => exact absurd empty nonempty
  | lost queued unconfirmable =>
    exact absurd (confirmable_of_ready inRange reliable ready queued) unconfirmable
  | @confirmed front mined world chain pool queued _ mining appended =>
    have record := mining.record
    have owner : mined.studentId = front.studentId := congrArg AttendanceRecord.studentId record
    obtain ⟨room, nonces, filled, ledger⟩ := ready
    rw [queued, List.forall_mem_cons] at nonces filled
    rw [queued, List.map_cons, ← owner] at ledger
    obtain ⟨ok, ledger⟩ := ready_settle env named
      (large_of_consistent (filled.1.of_record record.symm)) ledger
    refine ⟨ok, ?_, ?_, filled.2, ledger⟩
    · rw [queued, List.length_cons] at room
      rw [appended, List.length_append, List.length_singleton]
      simp only
      omega
    · intro block member longer grown
      rw [appended] at grown
      exact nonces.2 block member longer ((List.prefix_append _ _).trans grown)

/-- Two rounds that start with the same chain and pool append the same block. -/
private theorem rounds_in_step {call call' : MiningCall} {st st' : MineState}
    (named : ∀ minerId, call = .solo minerId → minerId.getD soloMiner = soloMiner)
    (named' : ∀ minerId, call' = .solo minerId → minerId.getD soloMiner = soloMiner)
    (ready : ReadyToMine env registry difficulty call st)
    (ready' : ReadyToMine env registry difficulty call' st')
    (nonempty : st.pool.blocks ≠ []) (chains : st.chain = st'.chain) (pools : st.pool = st'.pool) :
    (call.round env difficulty st).ok = (call'.round env difficulty st').ok ∧
    (call.round env difficulty st).state.chain = (call'.round env difficulty st').state.chain ∧
    (call.round env difficulty st).state.pool = (call'.round env difficulty st').state.pool := by
  have ok := (ready_round inRange reliable named ready nonempty).1
  have ok' := (ready_round inRange reliable named' ready' (pools ▸ nonempty)).1
  refine ⟨ok.trans ok'.symm, ?_⟩
  have step := call.roundStep env difficulty st
  have step' := call'.roundStep env difficulty st'
  generalize call.round env difficulty st = result at step ok ⊢
  generalize call'.round env difficulty st' = result' at step' ok' ⊢
  cases step with
  | idle | lost => cases ok
  | @confirmed front mined _ chain pool queued _ mining appended =>
    cases step' with
    | idle | lost => cases ok'
    | @confirmed front' mined' _ chain' pool' queued' _ mining' appended' =>
      rw [← pools, queued, List.cons.injEq] at queued'
      -- signature and nonce are determined by the linked block
      obtain ⟨rfl, rest⟩ := queued'
      have same : mined = mined' := MinedFrom.unique chains
        (by rw [reliable.signs, reliable.signs, chains]) mining mining'
      refine ⟨Blockchain.ext ?_, PendingPool.ext rest⟩
      simp only [appended, appended', chains, same]

/-- A loop that is ready confirms every pending block. -/
private theorem loop_of_ready {call : MiningCall} {st : MineState}
    (named : ∀ minerId, call = .solo minerId → minerId.getD soloMiner = soloMiner)
    (ready : ReadyToMine env registry difficulty call (call.start env st).state) :
    EachRound (call.round env difficulty)
      (fun st => ReadyToMine env registry difficulty call st ∧ st.pool.blocks ≠ [])
      st.pool.blocks.length (call.start env st).state ∧
    (call.loop env st difficulty).ok = true ∧
    (call.loop env st difficulty).state.pool.blocks = [] := by
  obtain ⟨each, ok, last⟩ := repeatFor_countdown (call.round env difficulty)
    (p := fun st => ReadyToMine env registry difficulty call st ∧ st.pool.blocks ≠ [])
    (fun n st => ReadyToMine env registry difficulty call st ∧ st.pool.blocks.length = n)
    (fun n st held => by
      have nonempty : st.pool.blocks ≠ [] := by
        intro empty
        rw [empty] at held
        cases held.2
      obtain ⟨ok, next⟩ := ready_round inRange reliable named held.1 nonempty
      refine ⟨⟨held.1, nonempty⟩, ok, next, ?_⟩
      rw [MiningCall.round, pool_confirmRound, List.length_tail, held.2, Nat.add_sub_cancel])
    ⟨ready, by rw [MiningCall.pool_start]⟩
  exact ⟨each, ok, List.length_eq_zero_iff.mp last.2⟩

end Rounds

/-- The call is one of those compared: solo mining pays the solo miner, and cloud mining is
rented for a number of rounds that it accepts. -/
def MiningCall.Compared : MiningCall → Prop
  | .solo minerId => minerId.getD soloMiner = soloMiner
  | .pool _ => True
  | .cloud rounds _ _ => cloudMinRounds ≤ rounds ∧ rounds ≤ cloudMaxRounds

private theorem MiningCall.Compared.named {call : MiningCall} (compared : call.Compared)
    (minerId : Option (List Char)) (solo : call = .solo minerId) :
    minerId.getD soloMiner = soloMiner := by
  subst solo
  exact compared

private theorem MiningCall.Compared.accepted {call : MiningCall} {st : MineState}
    (compared : call.Compared) (nonempty : st.pool.blocks ≠ []) : ¬call.Rejected st := by
  cases call with
  | solo | pool => exact nonempty
  | cloud =>
    rintro ((low | high) | empty)
    · exact absurd compared.1 (Int32.not_le.mpr low)
    · exact absurd compared.2 (Int32.not_le.mpr high)
    · exact nonempty empty

private theorem MiningCall.Compared.student {call : MiningCall} (compared : call.Compared)
    {studentId : List Char} (student : ¬MinerId studentId) : ¬call.PaysMiner studentId := by
  rintro (miner | ⟨minerId, rfl⟩)
  · exact student miner
  · have named : minerId = soloMiner := compared
    subst named
    rw [CStr.text_strncpy (by decide)] at student
    exact student .solo

/-- A call that is ready at each round pays every student. -/
private theorem exactBalance_of_ready {env : Env} {registry : StudentRegistry} {difficulty : Int32}
    {st : MineState} {call : MiningCall} (compared : call.Compared)
    (filled : ∀ block ∈ st.pool.blocks, Consistent env registry block)
    (fits : (mine env st difficulty call).overflow = false)
    (each : EachRound (call.round env difficulty)
      (fun st => ReadyToMine env registry difficulty call st ∧ st.pool.blocks ≠ [])
      st.pool.blocks.length (call.start env st).state)
    {studentId : List Char} (student : ¬MinerId studentId) :
    (mine env st difficulty call).state.ledger.exactBalance studentId =
      st.ledger.exactBalance studentId - earned studentId st.chain.blocks +
        earned studentId (mine env st difficulty call).state.chain.blocks := by
  have pays : call.PaysEach env st difficulty := by
    refine fun _ => each.imp (fun st held front first _ _ _ => ?_)
    obtain ⟨ready, _⟩ := held
    obtain ⟨rest, queued⟩ := List.head?_eq_some_iff.mp first
    have ledger := ready.ledger
    rw [queued, List.map_cons] at ledger
    exact ledger.hasRoomFor
  have kept : _ - _ = _ - _ := congrFun ((beyondRewards_mine filled fits).mpr pays)
    ⟨studentId, compared.student student⟩
  simp only at kept
  omega

/-- Two calls from one state return true and leave the same chain, an empty pool and the
same balances of students. -/
private theorem calls_agree {env : Env} {registry : StudentRegistry} {difficulty : Int32}
    {sign : Block → Block} (inRange : DifficultyInRange difficulty) (reliable : Reliable env sign)
    {st : MineState} (nonempty : st.pool.blocks ≠ []) {call call' : MiningCall}
    (compared : call.Compared) (compared' : call'.Compared)
    (ready : ReadyToMine env registry difficulty call (call.start env st).state)
    (ready' : ReadyToMine env registry difficulty call' (call'.start env st).state)
    (fits : (mine env st difficulty call).overflow = false)
    (fits' : (mine env st difficulty call').overflow = false) :
    let left := mine env st difficulty call
    let right := mine env st difficulty call'
    left.ok = true ∧ left.state.pool.blocks = [] ∧ left.state.chain = right.state.chain ∧
    ∀ studentId, ¬MinerId studentId →
      ledgerBalance left.state.ledger studentId = ledgerBalance right.state.ledger studentId := by
  intro left right
  have accepted := compared.accepted nonempty
  have accepted' := compared'.accepted nonempty
  obtain ⟨each, ok, empty⟩ := loop_of_ready inRange reliable compared.named ready
  obtain ⟨each', _, _⟩ := loop_of_ready inRange reliable compared'.named ready'
  obtain ⟨chain, pool⟩ := mine_of_accepted env difficulty accepted
  obtain ⟨chain', _⟩ := mine_of_accepted env difficulty accepted'
  -- the two loops append the same blocks, round by round
  have same : left.state.chain = right.state.chain := by
    refine chain.trans (Eq.trans ?_ chain'.symm)
    exact (repeatFor_sim (fun a b => a.chain = b.chain ∧ a.pool = b.pool)
      (fun a b held held' same => rounds_in_step inRange reliable compared.named compared'.named
        held.1 held'.1 held.2 same.1 same.2) each each' (by simp)).1
  refine ⟨?_, pool ▸ empty, same, ?_⟩
  · change (mine env st difficulty call).ok = true
    rw [mine_eq, if_neg accepted]
    simp only [ok, if_true]
  -- what a student has gained is read off the chain, and that is the same
  · intro studentId student
    have filled : ∀ block ∈ st.pool.blocks, Consistent env registry block := by
      have filled := ready.filled
      rwa [MiningCall.pool_start] at filled
    have balance := exactBalance_of_ready compared filled fits each student
    have balance' := exactBalance_of_ready compared' filled fits' each' student
    rw [← ofInt_exactBalance, ← ofInt_exactBalance, balance, balance']
    change Int32.ofInt (_ + earned studentId left.state.chain.blocks) = _
    rw [same]

/-- Started from one state, with room in the chain and in the ledger, the three modes return
true, leave the same chain and an empty pool, and give every student the same balance. -/
theorem modes_agree (env : Env) (registry : StudentRegistry) (sign : Block → Block)
    (st : MineState) (difficulty : Int32) (minerId : Option (List Char))
    (minerCount rounds rentalFee maintenanceFee : Int32) (reliable : Reliable env sign)
    (inRange : DifficultyInRange difficulty) (named : minerId.getD soloMiner = soloMiner)
    (rented : cloudMinRounds ≤ rounds ∧ rounds ≤ cloudMaxRounds)
    (filled : ∀ block ∈ st.pool.blocks, Consistent env registry block)
    (nonempty : st.pool.blocks ≠ [])
    (chain : st.chain.blocks.length + st.pool.blocks.length ≤ maxBlocks)
    (nonces : ∀ front ∈ st.pool.blocks, ∀ chain : Blockchain, st.chain.blocks <+: chain.blocks →
      ∃ nonce, Meets env difficulty (linkBlock front chain) nonce)
    (entries : st.ledger.model = .utxo →
      st.ledger.utxoSet.entries.length + 2 * st.pool.blocks.length + 8 ≤ maxUtxos)
    (rows : st.ledger.model = .account →
      (∀ block ∈ st.pool.blocks, block.studentId.text ∈ st.ledger.accountLedger.keys) ∧
        st.ledger.accountLedger.accounts.length < maxStudents)
    (soloFits : (miningSolo env st difficulty minerId).overflow = false)
    (poolFits : (miningPool env st difficulty minerCount).overflow = false)
    (cloudFits :
      (miningCloud env st difficulty rounds rentalFee maintenanceFee).overflow = false) :
    let solo := miningSolo env st difficulty minerId
    let pool := miningPool env st difficulty minerCount
    let cloud := miningCloud env st difficulty rounds rentalFee maintenanceFee
    (solo.ok = true ∧ pool.ok = true ∧ cloud.ok = true) ∧
    (solo.state.chain = pool.state.chain ∧ pool.state.chain = cloud.state.chain) ∧
    (solo.state.pool.blocks = [] ∧ pool.state.pool.blocks = [] ∧ cloud.state.pool.blocks = []) ∧
    ∀ studentId, ¬MinerId studentId →
      ledgerBalance solo.state.ledger studentId = ledgerBalance pool.state.ledger studentId ∧
      ledgerBalance pool.state.ledger studentId = ledgerBalance cloud.state.ledger studentId := by
  -- each mode starts with room for all pending blocks
  have ready (call : MiningCall) :
      ReadyToMine env registry difficulty call (call.start env st).state := by
    constructor
    · rwa [MiningCall.chain_start, MiningCall.pool_start]
    · rwa [MiningCall.chain_start, MiningCall.pool_start]
    · rwa [MiningCall.pool_start]
    · rw [MiningCall.pool_start]
      apply ready_start env call
      · intro utxo
        rw [List.length_map]
        exact entries utxo
      · intro account
        exact ⟨List.forall_mem_map.mpr (rows account).1, (rows account).2⟩
  have agree (call call' : MiningCall) (compared : call.Compared) (compared' : call'.Compared) :=
    calls_agree inRange reliable nonempty compared compared' (ready call) (ready call')
  obtain ⟨soloOk, soloEmpty, soloChain, soloBalance⟩ :=
    agree (.solo minerId) (.pool minerCount) named trivial soloFits poolFits
  obtain ⟨poolOk, poolEmpty, poolChain, poolBalance⟩ :=
    agree (.pool minerCount) (.cloud rounds rentalFee maintenanceFee) trivial rented poolFits
      cloudFits
  obtain ⟨cloudOk, cloudEmpty, _⟩ :=
    agree (.cloud rounds rentalFee maintenanceFee) (.pool minerCount) rented trivial cloudFits
      poolFits
  exact ⟨⟨soloOk, poolOk, cloudOk⟩, ⟨soloChain, poolChain⟩, ⟨soloEmpty, poolEmpty, cloudEmpty⟩,
    fun studentId student => ⟨soloBalance studentId student, poolBalance studentId student⟩⟩

/-- Two pending blocks, mined by the solo miner, by the default pool, and for two rounds. -/
theorem modes_agree_sample :
    let st := (Runs.final (sessionStep Sample.env Sample.registry) (Sample.start .account)
      [.mark "ALU001".toList "PRESENT".toList, .mark "ALU002".toList "LATE".toList]).toMineState
    let solo := miningSolo Sample.env st 1 none
    let pool := miningPool Sample.env st 1 0
    let cloud := miningCloud Sample.env st 1 2 3 1
    (solo.ok = true ∧ pool.ok = true ∧ cloud.ok = true) ∧
    (solo.state.chain = pool.state.chain ∧ pool.state.chain = cloud.state.chain) ∧
    (solo.state.pool.blocks = [] ∧ pool.state.pool.blocks = [] ∧ cloud.state.pool.blocks = []) ∧
    ∀ studentId, ¬MinerId studentId →
      ledgerBalance solo.state.ledger studentId = ledgerBalance pool.state.ledger studentId ∧
      ledgerBalance pool.state.ledger studentId = ledgerBalance cloud.state.ledger studentId :=
  modes_agree Sample.env Sample.registry Sample.sign
    (Runs.final (sessionStep Sample.env Sample.registry) (Sample.start .account)
      [.mark "ALU001".toList "PRESENT".toList, .mark "ALU002".toList "LATE".toList]).toMineState
    1 none 0 2 3 1 ⟨Sample.signBlock_eq, fun _ => rfl⟩ (by decide) rfl (by decide)
    (by decide +kernel) (by decide +kernel) (by decide +kernel)
    (fun _ _ _ _ => ⟨0, Sample.meets _ 0⟩) (by decide +kernel) (by decide +kernel)
    (by decide +kernel) (by decide +kernel) (by decide +kernel)

end Attendance
