import Attendance.Properties.Solvency
import Attendance.Rewards

/-!
# What a balance is made of

What a student owns comes from the blocks that were confirmed and from transfers. A student
never has more than these explain, and has less after a reward that was not paid, or a change
of the model.
-/
namespace Attendance

open CText MachineInt Calls

/-- What a transfer moves: the amount to the recipient, and it and the fee from the sender. -/
def movement (sender recipient : List Char) (amount : Int32) : List (List Char × Int) :=
  [(recipient, amount.toInt), (sender, -(amount.toInt + txFee.toInt))]

/-- What a command moves, if it is accepted. -/
def moved (env : Env) (registry : StudentRegistry) (session : Session) (command : Command) :
    List (List Char × Int) :=
  if (execute env registry session command).ok then
    match command with
    | .transfer sender recipient amount => movement sender.text recipient.text amount
    | .transferNonce sender recipient amount _ => movement sender.text recipient.text amount
    | _ => []
  else []

/-- What an id has got by the movements, and what it has given taken off. -/
def received (studentId : List Char) (log : List (List Char × Int)) : Int :=
  ((log.filter fun entry => entry.1 = studentId).map Prod.snd).sum

@[simp] theorem received_nil (studentId : List Char) : received studentId [] = 0 := rfl

@[simp] theorem received_append (studentId : List Char) (log later : List (List Char × Int)) :
    received studentId (log ++ later) = received studentId log + received studentId later := by
  simp [received]

theorem received_movement (studentId sender recipient : List Char) (amount : Int32) :
    received studentId (movement sender recipient amount) =
      (if studentId = recipient then amount.toInt else 0) +
        if studentId = sender then -(amount.toInt + txFee.toInt) else 0 := by
  simp only [received, movement, List.filter_cons, decide_eq_true_eq, eq_comm (b := studentId)]
  split <;> split <;> simp

/-! ### Transfers -/

/-- Only the ids decide where a row is. -/
private theorem position_of_keys {ledger ledger' : AccountLedger} (keys : ledger'.keys = ledger.keys)
    (studentId : List Char) : Table.position Account.key studentId ledger'.accounts =
      Table.position Account.key studentId ledger.accounts := by
  have columns (table : AccountLedger) : Table.position Account.key studentId table.accounts =
      table.keys.findIdx? fun key => key = studentId := by
    rw [AccountLedger.keys, List.findIdx?_map]
    rfl
  rw [columns, columns, keys]

private theorem balanceOf_of_position {ledger : AccountLedger} {studentId : List Char} {k : Nat}
    (found : Table.position Account.key studentId ledger.accounts = some k) :
    ledger.balanceOf studentId = (ledger.row k).balance := by
  rw [AccountLedger.balanceOf, row_eq_of_position found, Option.map_some, Option.getD_some]

private theorem id_of_position {ledger : AccountLedger} {left right : List Char} {k : Nat}
    (found : Table.position Account.key left ledger.accounts = some k)
    (found' : Table.position Account.key right ledger.accounts = some k) : left = right :=
  (Table.key_of_lookup Account.key (row_eq_of_position found)).symm.trans
    (Table.key_of_lookup Account.key (row_eq_of_position found'))

/-- What is posted is what is moved, also from an account to itself. -/
private theorem balanceOf_postTransfer {ledger : AccountLedger} {i j : Nat}
    {sender recipient : List Char} {amount : Int32} (nonce : Int32)
    (senderRow : Table.position Account.key sender ledger.accounts = some i)
    (recipientRow : Table.position Account.key recipient ledger.accounts = some j)
    (fits : (addOverflows amount txFee || postOverflows ledger i j amount) = false)
    (studentId : List Char) :
    ((postTransfer ledger i j sender recipient amount nonce).balanceOf studentId).toInt =
      (ledger.balanceOf studentId).toInt +
        received studentId (movement sender recipient amount) := by
  simp only [postOverflows, Bool.or_eq_false_iff] at fits
  obtain ⟨fee, ⟨debit, credit⟩, _⟩ := fits
  have inside := Table.position_lt Account.key recipientRow
  rw [balance_debitSender amount inside] at credit
  -- posting adds no rows, so each id is found where it was
  have same := position_of_keys (keys_postTransfer ledger i j sender recipient amount nonce)
    studentId
  rw [received_movement]
  cases found : Table.position Account.key studentId ledger.accounts with
  | none =>
    rw [found] at same
    have notSender : studentId ≠ sender := by
      rintro rfl
      cases found.symm.trans senderRow
    have notRecipient : studentId ≠ recipient := by
      rintro rfl
      cases found.symm.trans recipientRow
    rw [AccountLedger.balanceOf, find_eq_none_of_position same, AccountLedger.balanceOf,
      find_eq_none_of_position found, if_neg notSender, if_neg notRecipient]
    rfl
  | some k =>
    rw [found] at same
    have isSender : studentId = sender ↔ i = k := by
      refine ⟨fun owner => ?_, fun row => id_of_position found (row ▸ senderRow)⟩
      subst owner
      exact Option.some.inj (senderRow.symm.trans found)
    have isRecipient : studentId = recipient ↔ j = k := by
      refine ⟨fun owner => ?_, fun row => id_of_position found (row ▸ recipientRow)⟩
      subst owner
      exact Option.some.inj (recipientRow.symm.trans found)
    rw [balanceOf_of_position same, balanceOf_of_position found,
      row_postTransfer sender recipient amount nonce (Table.position_lt Account.key found)]
    simp only [isSender, isRecipient]
    have paid := toInt_sub_of_fits debit
    rw [toInt_add_of_fits fee] at paid
    -- the sender is debited first; a transfer to oneself is credited to what that leaves
    by_cases payer : i = k
    · subst payer
      by_cases payee : j = i
      · subst payee
        rw [if_pos rfl] at credit
        simp only [if_true, toInt_add_of_fits credit, paid]
        omega
      · rw [if_neg (Ne.symm payee)] at credit
        simp only [payee, if_true, if_false, paid]
        omega
    · by_cases payee : j = k
      · subst payee
        rw [if_neg payer] at credit
        simp only [payer, if_true, if_false, toInt_add_of_fits credit]
        omega
      · simp [payer, payee]

private theorem balanceOf_lookups (ledger : AccountLedger) (ids : List (List Char))
    (studentId : List Char) : (lookups ledger ids).balanceOf studentId = ledger.balanceOf studentId :=
  lookups_keeps (fun table => table.balanceOf studentId = ledger.balanceOf studentId)
    (fun table id _ same => (balanceOf_findOrCreateAccount table id studentId).trans same) rfl

private theorem exactSum_owned_of_spentWorthless {before after : List UTXO}
    (spent : SpentWorthless before after) (owner : List Char) :
    exactSum (ownedAmounts after owner) = exactSum (ownedAmounts before owner) := by
  unfold ownedAmounts
  induction spent with
  | nil => rfl
  | @cons old new _ _ head _ ih =>
    rcases head with rfl | ⟨worthless, rfl⟩
    · rw [List.filter_cons, List.filter_cons]
      split
      · rw [List.map_cons, List.map_cons, exactSum_cons, exactSum_cons, ih]
      · exact ih
    -- a spent entry no longer counts, and was worth nothing
    · rw [List.filter_cons, List.filter_cons, if_neg (by simp)]
      split
      · rw [List.map_cons, exactSum_cons, worthless, ih]
        exact (Int.zero_add _).symm
      · exact ih

/-- A transfer moves coins if it is accepted, and nothing otherwise. -/
private theorem exactBalance_transfer (env : Env) {ledger : Ledger} {op : LedgerOp}
    {sender recipient : List Char} {amount : Int32}
    (identified : ∀ entry ∈ ledger.utxoSet.entries, entry.Identified)
    (asks : op = .transfer sender recipient amount ∨
      ∃ nonce, op = .transferNonce sender recipient amount nonce)
    (short : sender.length < studentIdLen) (short' : recipient.length < studentIdLen)
    (inRange : InRange env ledger op) (studentId : List Char) :
    (ledgerStep env ledger op).exactBalance studentId = ledger.exactBalance studentId +
      received studentId
        (if (op.call env ledger).ok then movement sender recipient amount else []) := by
  have transfer : ¬op.IsCredit := by
    rcases asks with rfl | ⟨nonce, rfl⟩ <;> exact id
  have step := opStep env op (fun _ => ⟨identified, inRange⟩)
  unfold InRange at inRange
  unfold ledgerStep
  generalize op.call env ledger = outcome at step inRange ⊢
  cases step with
  | @idle ok _ free =>
    cases ok with
    -- only a credit, of nothing, succeeds without doing anything
    | true => exact absurd (free rfl).1 transfer
    | false => exact (Int.add_zero _).symm
  | lookedUp =>
    rw [if_neg Bool.false_ne_true, received_nil, Int.add_zero]
    unfold Ledger.exactBalance
    cases ledger.model with
    | utxo => rfl
    | account => exact congrArg Int32.toInt (balanceOf_lookups ledger.accountLedger _ studentId)
  | credited _ _ _ _ _ credit => exact absurd credit transfer
  | added _ _ _ _ _ credit => exact absurd credit transfer
  | @posted from' to' value nonce found i j model sends looked _ _ senderRow recipientRow =>
    obtain ⟨rfl, rfl, rfl⟩ : from' = sender ∧ to' = recipient ∧ value = amount := by
      rcases asks with rfl | ⟨nonce, rfl⟩ <;> rcases sends with ⟨same, _⟩ | same <;> cases same <;>
        exact ⟨rfl, rfl, rfl⟩
    have posted := balanceOf_postTransfer nonce (senderRow short) (recipientRow short') inRange
      studentId
    simp only [Ledger.exactBalance, model, if_true, posted]
    rw [looked, balanceOf_lookups]
  | refused model spent =>
    -- a failed transfer may have spent outputs, but only such as are worth nothing
    simp only [Ledger.exactBalance, model, if_neg Bool.false_ne_true, received_nil, Int.add_zero]
    exact exactSum_owned_of_spentWorthless spent studentId

/-! ### Sessions -/

/-- What a student owns beyond what the chain and the movements explain. -/
def unexplained (log : List (List Char × Int)) (session : Session) :
    {studentId // ¬MinerId studentId} → Int :=
  fun studentId => session.ledger.exactBalance studentId -
    earned studentId session.chain.blocks - received studentId log

/-- A mining command pays each block it confirms, and a change of the model takes nothing away. -/
def PaysUp (env : Env) (session : Session) (command : Command) : Prop :=
  (∀ call ∈ command.miningCall, call.PaysEach env session.toMineState session.difficulty) ∧
  ∀ argument, command = .model argument → ∀ studentId, ¬MinerId studentId →
    session.ledger.exactBalance studentId = 0

/-- What the session keeps: no debts, and blocks that mining can pay. -/
structure Orderly (env : Env) (registry : StudentRegistry) (session : Session) : Prop where
  solvent : Solvent session.ledger
  filled : ∀ block ∈ session.pool.blocks, Consistent env registry block

private theorem not_paysMiner {command : Command} {call : MiningCall}
    (mining : command.miningCall = some call) {studentId : List Char}
    (student : ¬MinerId studentId) : ¬call.PaysMiner studentId := by
  rintro (miner | ⟨minerId, passed⟩)
  · exact student miner
  · subst passed
    -- the only id that is passed is the fixed one
    cases command with
    | mineSolo =>
      cases mining
      rw [CStr.text_strncpy (by decide)] at student
      exact student .solo
    | _ => cases mining

private theorem exactBalance_nonneg {ledger : Ledger} (solvent : Solvent ledger)
    (studentId : List Char) : 0 ≤ ledger.exactBalance studentId := by
  cases model : ledger.model with
  | utxo =>
    simp only [Ledger.exactBalance, model]
    apply exactSum_nonneg
    intro value member
    simp only [unspentAmounts, List.mem_map, List.mem_filter] at member
    obtain ⟨entry, ⟨there, _⟩, rfl⟩ := member
    exact solvent.amounts entry there
  | account =>
    have inRange := balanceInRange_of_account model studentId
    exact toInt_ledgerBalance inRange ▸ solvent.ledgerBalance inRange

private theorem exactBalance_ledgerInit (model : LedgerModel) (registry : StudentRegistry)
    (studentId : List Char) : (ledgerInit model registry).2.exactBalance studentId = 0 := by
  unfold Ledger.exactBalance
  rw [model_ledgerInit]
  cases model with
  | utxo =>
    simp only [unspentAmounts, entries_ledgerInit]
    rfl
  | account =>
    obtain ⟨ids, _, table⟩ := accountLedger_ledgerInit .account registry
    simp only [table, balanceOf_lookups]
    rfl

private theorem orderly_sessionStep {env : Env} {registry : StudentRegistry} {session : Session}
    {command : Command} (orderly : Orderly env registry session)
    (sound : Sound env registry session command) :
    Orderly env registry (sessionStep env registry session command) := by
  refine ⟨solvent_sessionStep env registry orderly.solvent sound, ?_⟩
  cases mining : command.miningCall with
  | some call =>
    rw [sessionStep_of_miningCall env registry session mining]
    refine mine_rel call (fun _ pool _ pool' => (∀ block ∈ pool.blocks, Consistent env registry block)
      → ∀ block ∈ pool'.blocks, Consistent env registry block) (fun _ _ held => held)
      (fun first second held => second (first held)) (fun st held => ?_) session.toMineState
      orderly.filled
    -- a round takes the front block off the pool, and adds none
    rw [MiningCall.round, pool_confirmRound]
    exact fun block member => held block (List.mem_of_mem_tail member)
  | none =>
    cases command with
    | mineSolo | minePool | mineCloud => cases mining
    | mark studentId status =>
      simp only [sessionStep, execute]
      rcases markAttendance_cases env session.world session.pool session.chain registry studentId
        status with ⟨world, pool, block, result, queued, consistent, _⟩ | ⟨world, result⟩
      · rw [result, queued, List.forall_mem_append, List.forall_mem_singleton]
        exact ⟨orderly.filled, consistent⟩
      · rw [result]
        exact orderly.filled
    | transfer sender recipient amount =>
      simp only [sessionStep, execute]
      split <;> exact orderly.filled
    | transferNonce | model | difficulty | tamper => exact orderly.filled

/-- Where a command has moved nothing and left the chain and the ledger alone, nothing has to be
explained anew. -/
private theorem unexplained_of_same {log out : List (List Char × Int)} {before after : Session}
    (balances : ∀ studentId, after.ledger.exactBalance studentId =
      before.ledger.exactBalance studentId + received studentId out)
    (rewards : ∀ studentId, earned studentId after.chain.blocks =
      earned studentId before.chain.blocks) :
    unexplained (log ++ out) after = unexplained log before := by
  funext studentId
  simp only [unexplained, balances, rewards, received_append]
  omega

private theorem unexplained_mine {env : Env} {registry : StudentRegistry} {session : Session}
    {command : Command} {call : MiningCall} (orderly : Orderly env registry session)
    (mining : command.miningCall = some call)
    (inRange : (mine env session.toMineState session.difficulty call).overflow = false)
    (log : List (List Char × Int)) :
    unexplained log (sessionStep env registry session command) ≤ unexplained log session ∧
    (unexplained log (sessionStep env registry session command) = unexplained log session ↔
      call.PaysEach env session.toMineState session.difficulty) := by
  obtain ⟨lower, same_iff⟩ := beyondRewards_mine_cases orderly.filled inRange
  rw [sessionStep_of_miningCall env registry session mining, ← same_iff]
  -- the ids a call does not pay are those that no call pays
  have student (id : {id // ¬call.PaysMiner id}) : ¬MinerId id.1 :=
    fun miner => id.2 (.fixed miner)
  refine ⟨fun studentId => ?_, fun same => ?_, fun same => ?_⟩
  · exact Int.sub_le_sub_right (lower ⟨studentId, not_paysMiner mining studentId.2⟩) _
  · funext id
    exact sub_left_inj.mp (congrFun same ⟨id.1, student id⟩)
  · funext studentId
    exact congrArg (· - received studentId.1 log)
      (congrFun same ⟨studentId, not_paysMiner mining studentId.2⟩)

private theorem unexplained_sessionStep {env : Env} {registry : StudentRegistry}
    {session : Session} {command : Command} (orderly : Orderly env registry session)
    (inRange : (execute env registry session command).overflow = false)
    (log : List (List Char × Int)) :
    unexplained (log ++ moved env registry session command)
        (sessionStep env registry session command) ≤ unexplained log session ∧
    (unexplained (log ++ moved env registry session command)
        (sessionStep env registry session command) = unexplained log session ↔
      PaysUp env session command) := by
  have identified := orderly.solvent.identified
  cases mining : command.miningCall with
  | some call =>
    have still : moved env registry session command = [] := by
      unfold moved
      cases command with
      | mineSolo | minePool | mineCloud => exact ite_self []
      | _ => cases mining
    have noModel (argument : List Char) : command ≠ .model argument := by
      rintro rfl
      cases mining
    rw [execute_of_miningCall env registry session mining] at inRange
    rw [still, List.append_nil]
    simpa [PaysUp, mining, noModel] using unexplained_mine orderly mining inRange log
  | none =>
    -- every other command but a change of the model keeps what is unexplained
    have keeps (noModel : ∀ argument, command ≠ .model argument)
        (same : unexplained (log ++ moved env registry session command)
          (sessionStep env registry session command) = unexplained log session) :
        unexplained (log ++ moved env registry session command)
            (sessionStep env registry session command) ≤ unexplained log session ∧
        (unexplained (log ++ moved env registry session command)
            (sessionStep env registry session command) = unexplained log session ↔
          PaysUp env session command) :=
      ⟨le_of_eq same, iff_of_true same (by simp [PaysUp, mining, noModel])⟩
    cases command with
    | mineSolo | minePool | mineCloud => cases mining
    | model argument =>
      -- what was owned is gone, and was not negative
      have emptied (studentId : {id // ¬MinerId id}) :
          unexplained (log ++ moved env registry session (.model argument))
            (sessionStep env registry session (.model argument)) studentId =
          unexplained log session studentId - session.ledger.exactBalance studentId := by
        simp only [unexplained, sessionStep, execute, ledgerSetModel, exactBalance_ledgerInit,
          moved, if_true, List.append_nil]
        omega
      refine ⟨fun studentId => ?_, fun same => ?_, fun pays => ?_⟩
      · have owned := exactBalance_nonneg orderly.solvent studentId.1
        rw [emptied]
        exact Int.sub_le_self _ owned
      · refine ⟨by simp [mining], fun _ _ studentId student => ?_⟩
        have kept := congrFun same ⟨studentId, student⟩
        rw [emptied] at kept
        exact sub_eq_self.mp kept
      · funext studentId
        rw [emptied, pays.2 argument rfl studentId studentId.2, Int.sub_zero]
    | mark studentId status =>
      have still : moved env registry session (.mark studentId status) = [] := ite_self []
      refine keeps (by simp) (unexplained_of_same (fun id => ?_) fun id => rfl)
      rw [still, received_nil, Int.add_zero]
      rfl
    | difficulty value =>
      have still : moved env registry session (.difficulty value) = [] := ite_self []
      refine keeps (by simp) (unexplained_of_same (fun id => ?_) fun id => rfl)
      rw [still, received_nil, Int.add_zero]
      rfl
    | tamper i =>
      have still : moved env registry session (.tamper i) = [] := ite_self []
      refine keeps (by simp) (unexplained_of_same (fun id => ?_) fun id => ?_)
      · rw [still, received_nil, Int.add_zero]
        rfl
      -- a reward does not depend on the status any more
      · rcases blockchainTamperDemo_cases env session.world session.chain i with same | ⟨j, changed⟩
        · exact congrArg (fun chain => earned id chain.blocks) same
        · have kept : (session.chain.blocks.modify j tamperBlock).map (rewardFor id) =
              session.chain.blocks.map (rewardFor id) :=
            Table.map_key_modify (f := tamperBlock) (rewardFor id) (fun _ => rfl) _ j
          exact (congrArg (earned id) changed).trans (congrArg List.sum kept)
    | transfer sender recipient amount =>
      refine keeps (by simp) (unexplained_of_same (fun id => ?_) fun id => ?_)
      · by_cases unknown :
            (findStudent registry sender.text).isNone || (findStudent registry recipient.text).isNone
        · have executed : execute env registry session (.transfer sender recipient amount) =
              ⟨false, session, false⟩ := if_pos unknown
          simp only [moved, sessionStep, executed]
          exact (Int.add_zero _).symm
        · have executed : execute env registry session (.transfer sender recipient amount) =
              session.withLedger
                (ledgerTransfer env session.ledger sender.text recipient.text amount) :=
            if_neg unknown
          rw [executed] at inRange
          simp only [moved, sessionStep, executed]
          exact exactBalance_transfer env identified (Or.inl rfl) sender.fits recipient.fits
            inRange id
      · rw [chain_sessionStep_of_other env registry session mining (by simp)]
    | transferNonce sender recipient amount nonce =>
      refine keeps (by simp) (unexplained_of_same (fun id => ?_) fun id => rfl)
      have fits : InRange env session.ledger
          (.transferNonce sender.text recipient.text amount nonce) := inRange
      exact exactBalance_transfer env identified (Or.inr ⟨nonce, rfl⟩) sender.fits recipient.fits
        fits id

/-- The genesis block pays nobody. -/
private theorem earned_startFresh {env : Env} {registry : StudentRegistry} {model : LedgerModel}
    {difficulty : Int32} {session : Session}
    (started : startFresh env registry model difficulty = some session) (studentId : List Char) :
    earned studentId session.chain.blocks = 0 := by
  obtain ⟨_, genesis, _, _, created, blocks, rfl⟩ := startFresh_cases started
  have reward := tokenReward_createGenesisBlock created
  simp [firstPrompt, blocks, earned, rewardFor, reward]

private theorem unexplained_startFresh {env : Env} {registry : StudentRegistry}
    {model : LedgerModel} {difficulty : Int32} {session : Session}
    (started : startFresh env registry model difficulty = some session) :
    unexplained [] session = 0 := by
  funext studentId
  simp only [unexplained, (startFresh_some started).ledger, exactBalance_ledgerInit,
    earned_startFresh started, received_nil]
  rfl

/-- In every session from a fresh start in which no `int` overflows and no negative transfer is
uncovered, whatever is marked, mined, transferred, switched and tampered with: no student has
more than the rewards of the blocks on the chain and the accepted transfers explain. And a student
has exactly that, for all students, if and only if every mining command paid each block it
confirmed and the model was only changed while no student had anything. A student is meant to have
an id that is not one of a miner. -/
theorem balances_explained_iff (env : Env) (registry : StudentRegistry) (model : LedgerModel)
    (difficulty : Int32) (session : Session)
    (started : startFresh env registry model difficulty = some session) (commands : List Command)
    (sound : Runs.Guarded (sessionStep env registry) (Sound env registry) session commands)
    (sums : ∀ studentId, ¬MinerId studentId → (Runs.final (sessionStep env registry) session
      commands).ledger.BalanceInRange studentId) :
    let after := Runs.final (sessionStep env registry) session commands
    let log := Runs.trace (sessionStep env registry) (moved env registry) session commands
    (∀ studentId, ¬MinerId studentId → (ledgerBalance after.ledger studentId).toInt ≤
      earned studentId after.chain.blocks + received studentId log) ∧
    ((∀ studentId, ¬MinerId studentId → (ledgerBalance after.ledger studentId).toInt =
      earned studentId after.chain.blocks + received studentId log) ↔
        Runs.Guarded (sessionStep env registry) (PaysUp env) session commands) := by
  intro after log
  have initial : Orderly env registry session := by
    obtain ⟨_, pool, ledger⟩ := startFresh_some started
    exact ⟨ledger ▸ solvent_ledgerInit model registry, by simp [pool]⟩
  -- what is unexplained never grows, and stays zero exactly while every command pays up
  obtain ⟨lower, same_iff⟩ := Runs.logged_eq_iff_guarded (sessionStep env registry)
    (moved env registry) unexplained (Orderly env registry)
    (fun _ _ orderly sound => orderly_sessionStep orderly sound)
    (fun log _ _ orderly sound => unexplained_sessionStep orderly sound.1 log) initial sound
  rw [List.nil_append, unexplained_startFresh started] at lower same_iff
  have exact' (studentId : List Char) (student : ¬MinerId studentId) :
      unexplained log after ⟨studentId, student⟩ =
        (ledgerBalance after.ledger studentId).toInt - earned studentId after.chain.blocks -
          received studentId log := by
    rw [toInt_ledgerBalance (sums studentId student), unexplained]
  rw [← same_iff]
  refine ⟨fun studentId student => ?_, fun same => ?_, fun same studentId student => ?_⟩
  · have below : unexplained log after ⟨studentId, student⟩ ≤ 0 := lower ⟨studentId, student⟩
    rw [exact'] at below
    omega
  · funext studentId
    have here := same studentId studentId.2
    rw [exact']
    show _ = (0 : Int)
    omega
  · have here : unexplained log after ⟨studentId, student⟩ = 0 :=
      congrFun same ⟨studentId, student⟩
    rw [exact'] at here
    omega

/-- Rewards, a transfer, a tampered block, and a change of the model that takes coins away. -/
def lossyCommands : List Command :=
  [.mark "ALU001".toList "PRESENT".toList, .mark "ALU002".toList "LATE".toList, .mineSolo,
    .transfer (.strncpy "ALU001".toList) (.strncpy "ALU002".toList) 3, .tamper 1,
    .model "account".toList, .mark "ALU002".toList "PRESENT".toList, .mineCloud 1 2 2]

theorem balances_explained_iff_sample :
    let after := Runs.final (sessionStep Sample.env Sample.registry) (Sample.start .account) lossyCommands
    let log := Runs.trace (sessionStep Sample.env Sample.registry)
      (moved Sample.env Sample.registry) (Sample.start .account) lossyCommands
    ((ledgerBalance after.ledger "ALU001".toList).toInt,
      earned "ALU001".toList after.chain.blocks, received "ALU001".toList log) = (0, 9, -4) ∧
    ∀ studentId, ¬MinerId studentId → (ledgerBalance after.ledger studentId).toInt ≤
      earned studentId after.chain.blocks + received studentId log :=
  ⟨by decide +kernel, (balances_explained_iff Sample.env Sample.registry .account 1
    (Sample.start .account) (Sample.startFresh_eq .account) lossyCommands (by decide +kernel)
    (fun studentId _ => balanceInRange_of_account (by decide +kernel) studentId)).1⟩

end Attendance
