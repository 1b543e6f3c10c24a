import Attendance.Foundation.Runs
import Attendance.Ledger.Operations
import Attendance.Sample

/-!
# The account table keeps every student

A lookup in the account table is an insertion, also on paths that fail later. All that any
call does to the ids of the table is to look some of them up: rows are added at the end,
under ids that have none, until the table is full.
-/
namespace Attendance

open Calls CText

inductive AccountCall where
  /-- `ledger_apply_confirmed_block`, with any transaction. -/
  | applyReward (block : Block) (tx : Transaction)
  | creditMiner (minerId : List Char) (amount : Int32)
  | transfer (sender recipient : List Char) (amount : Int32)
  | transferNonce (sender recipient : List Char) (amount nonce : Int32)

def AccountCall.call (env : Env) (ledger : Ledger) : AccountCall → Outcome Ledger
  | .applyReward block tx => ledgerApplyConfirmedBlock ledger block tx
  | .creditMiner minerId amount => ledgerCreditMiner env ledger minerId amount
  | .transfer sender recipient amount => ledgerTransfer env ledger sender recipient amount
  | .transferNonce sender recipient amount nonce =>
    ledgerTransferWithNonce ledger sender recipient amount nonce

def callStep (env : Env) (ledger : Ledger) (call : AccountCall) : Ledger :=
  (call.call env ledger).state

/-- The ids have at most 19 characters. The owners in a transaction do in any case. -/
def AccountCall.Short : AccountCall → Prop
  | .applyReward _ _ => True
  | .creditMiner minerId _ => minerId.length < studentIdLen
  | .transfer sender recipient _ | .transferNonce sender recipient _ _ =>
    sender.length < studentIdLen ∧ recipient.length < studentIdLen

/-! ### What a call does to the ids -/

/-- Some short ids have been looked up, and rows have been rewritten under their ids. -/
def AccountLedger.LookedUp (before after : AccountLedger) : Prop :=
  ∃ ids : List (List Char), after.keys = ids.foldl (Table.addKey maxStudents) before.keys

theorem AccountLedger.LookedUp.refl (ledger : AccountLedger) : ledger.LookedUp ledger := ⟨[], rfl⟩

theorem AccountLedger.LookedUp.trans {before between after : AccountLedger}
    (first : before.LookedUp between) (second : between.LookedUp after) :
    before.LookedUp after := by
  obtain ⟨ids, keys⟩ := first
  obtain ⟨ids', keys'⟩ := second
  exact ⟨ids ++ ids', by rw [keys', keys, List.foldl_append]⟩

theorem AccountLedger.LookedUp.prefix_keys {before after : AccountLedger}
    (looked : before.LookedUp after) : before.keys <+: after.keys := by
  obtain ⟨ids, keys⟩ := looked
  rw [keys]
  exact Table.prefix_foldl_addKey maxStudents before.keys ids

theorem AccountLedger.LookedUp.nodup {before after : AccountLedger}
    (looked : before.LookedUp after) (distinct : before.keys.Nodup) : after.keys.Nodup := by
  obtain ⟨ids, keys⟩ := looked
  rw [keys]
  exact Table.nodup_foldl_addKey distinct ids

theorem lookedUp_lookups (ledger : AccountLedger) {ids : List (List Char)}
    (short : ∀ id ∈ ids, id.length < studentIdLen) : ledger.LookedUp (lookups ledger ids) :=
  ⟨ids, keys_lookups ledger short⟩

theorem lookedUp_findOrCreateAccount {ledger accounts : AccountLedger} {id : List Char}
    {row : Option Nat} (short : id.length < studentIdLen)
    (looked : findOrCreateAccount ledger id = (accounts, row)) : ledger.LookedUp accounts := by
  refine ⟨[id], ?_⟩
  rw [List.foldl_cons, List.foldl_nil, ← keys_findOrCreateAccount ledger short, looked]

theorem lookedUp_applyRewardOutputs (ledger : AccountLedger) (fee : Int32)
    (outputs : List TxOutput) :
    ledger.LookedUp (applyRewardOutputs ledger fee outputs).state := by
  induction outputs generalizing ledger with
  | nil => exact .refl ledger
  | cons output outputs ih =>
    rw [applyRewardOutputs]
    cases result : findOrCreateAccount ledger output.owner.text with
    | mk accounts row =>
      have here := lookedUp_findOrCreateAccount output.owner.fits result
      cases row with
      | none => exact here
      | some i =>
        have rest := ih (accounts.modifyRow i
          (creditAccount · "SYSTEM".toList output.owner.text output.amount fee))
        obtain ⟨ids, keys⟩ := rest
        rw [keys_modifyRow accounts i (credits_creditAccount _ _ _ _).studentId] at keys
        exact here.trans ⟨ids, keys⟩

theorem lookedUp_accountTransfer (ledger : AccountLedger) {sender recipient : List Char}
    (amount nonce : Int32) (short : sender.length < studentIdLen)
    (short' : recipient.length < studentIdLen) :
    ledger.LookedUp (accountTransfer ledger sender recipient amount nonce).state := by
  have both : ∀ id ∈ [sender, recipient], id.length < studentIdLen := by simp [short, short']
  have looked := lookedUp_lookups ledger both
  rcases accountTransfer_cases ledger sender recipient amount nonce with
    ⟨_, result⟩ | ⟨_, i, j, _, _, _, _, result⟩
  · rw [result]
    exact looked
  · obtain ⟨ids, keys⟩ := looked
    rw [result]
    exact ⟨ids, by rw [keys_postTransfer, keys]⟩

/-- A call keeps the model and the UTXO set, and looks some ids up. -/
theorem lookedUp_call (env : Env) {ledger : Ledger} {call : AccountCall}
    (model : ledger.model = .account) (short : call.Short) :
    (callStep env ledger call).model = .account ∧
      ledger.accountLedger.LookedUp (callStep env ledger call).accountLedger := by
  cases call with
  | applyReward block tx =>
    simp only [callStep, AccountCall.call, ledgerApplyConfirmedBlock, model]
    split
    · exact ⟨model, .refl _⟩
    · exact ⟨model, lookedUp_applyRewardOutputs _ _ _⟩
  | creditMiner minerId amount =>
    simp only [callStep, AccountCall.call]
    by_cases positive : 0 < amount
    · have step := creditStep_ledgerCreditMiner env ledger minerId positive
      generalize ledgerCreditMiner env ledger minerId amount = outcome at step ⊢
      cases step with
      | added other => rw [model] at other; cases other
      | @posted accounts i _ row =>
        obtain ⟨ids, keys⟩ := lookedUp_findOrCreateAccount short row
        -- a credit changes the row, not the id in it
        refine ⟨model, ids, ?_⟩
        rw [← keys]
        exact keys_modifyRow accounts i (credits_creditAccount _ _ _ _).studentId
      | full => exact ⟨model, .refl _⟩
    · rw [ledgerCreditMiner, if_pos (Int32.not_lt.mp positive)]
      exact ⟨model, .refl _⟩
  | transfer sender recipient amount =>
    simp only [callStep, AccountCall.call, ledgerTransfer, model]
    split
    · exact ⟨model, .refl _⟩
    · split
      · exact ⟨model, .refl _⟩
      · cases result : findOrCreateAccount ledger.accountLedger sender with
        -- the lookup of the nonce may add a row by itself; the transfer then looks up both ids
        | mk accounts row =>
          have looked := lookedUp_findOrCreateAccount short.1 result
          cases row with
          | none => exact ⟨model, looked⟩
          | some i =>
            exact ⟨model, looked.trans (lookedUp_accountTransfer _ _ _ short.1 short.2)⟩
  | transferNonce sender recipient amount nonce =>
    simp only [callStep, AccountCall.call, ledgerTransferWithNonce, model]
    exact ⟨model, lookedUp_accountTransfer _ _ _ short.1 short.2⟩

theorem lookedUp_run (env : Env) {ledger : Ledger} {calls : List AccountCall}
    (model : ledger.model = .account) (short : ∀ call ∈ calls, call.Short) :
    (Runs.final (callStep env) ledger calls).model = .account ∧
      ledger.accountLedger.LookedUp (Runs.final (callStep env) ledger calls).accountLedger := by
  have guarded := (Runs.guarded_iff_forall_mem (callStep env) ledger calls).mpr short
  refine Runs.guarded_invariant (callStep env)
    (fun later => later.model = .account ∧ ledger.accountLedger.LookedUp later.accountLedger)
    ?_ ⟨model, .refl _⟩ guarded
  rintro later call ⟨same, looked⟩ fits
  obtain ⟨kept, here⟩ := lookedUp_call env same fits
  exact ⟨kept, looked.trans here⟩

/-! ### The rows of the students -/

theorem model_ledgerInit_account (registry : StudentRegistry) :
    (ledgerInit .account registry).2.model = .account := rfl

theorem nodup_keys_ledgerInit (model : LedgerModel) (registry : StudentRegistry) :
    (ledgerInit model registry).2.accountLedger.keys.Nodup := by
  obtain ⟨ids, known, table⟩ := accountLedger_ledgerInit model registry
  have short (id : List Char) (member : id ∈ ids) := length_of_mem_ids (known id member)
  rw [table]
  exact (lookedUp_lookups .empty short).nodup List.nodup_nil

/-- A registry has room in the table, so that `ledger_init` makes a row for each student. -/
theorem mem_keys_ledgerInit {registry : StudentRegistry} {id : List Char}
    (member : id ∈ registry.ids) : id ∈ (ledgerInit .account registry).2.accountLedger.keys := by
  have room : AccountLedger.empty.accounts.length + registry.students.length ≤ maxStudents := by
    rw [AccountLedger.empty, List.length_nil, Nat.zero_add]
    exact registry.fits
  have rows := accounts_createAccounts room
  have stored : (newAccount id).key = id := CStr.text_strncpy (length_of_mem_ids member)
  rw [AccountLedger.keys, ledgerInit]
  simp only
  rw [rows, ← stored]
  apply List.mem_map_of_mem
  rw [List.mem_append]
  right
  apply List.mem_map_of_mem
  rw [List.mem_eraseDups, List.mem_filter]
  exact ⟨member, by simp [AccountLedger.keys, AccountLedger.empty]⟩

/-! ### Credits to an id that has a row -/

/-- Nothing is different but the row of the id, which still carries the id. -/
def OnlyRowOf (id : List Char) (before after : Ledger) : Prop :=
  after.model = before.model ∧ after.utxoSet = before.utxoSet ∧
  after.accountLedger.keys = before.accountLedger.keys ∧
  ∀ k : Nat, before.accountLedger.keys[k]? ≠ some id →
    after.accountLedger.accounts[k]? = before.accountLedger.accounts[k]?

/-- The row of the id, which is there, is rewritten by `f`. -/
def RowBecomes (id : List Char) (f : Account → Account) (before after : Ledger) : Prop :=
  ∃ account, before.accountLedger.find id = some account ∧
    after.accountLedger.find id = some (f account)

/-- The row after the outputs of a reward: the amounts are on the balance, and a node for each
of them is in front of the history, the last one first. -/
def Account.rewarded (account : Account) (owner : List Char) (fee : Int32)
    (outputs : List TxOutput) : Account :=
  { account with
    balance := (outputs.map TxOutput.amount).foldl (· + ·) account.balance
    history := (outputs.map fun output => (⟨.strncpy "SYSTEM".toList, .strncpy owner,
      output.amount, fee, account.nonce⟩ : TxHistoryNode)).reverse ++ account.history }

theorem rewarded_cons (account : Account) (owner : List Char) (fee : Int32) (output : TxOutput)
    (outputs : List TxOutput) :
    account.rewarded owner fee (output :: outputs) =
      (creditAccount account "SYSTEM".toList owner output.amount fee).rewarded owner fee
        outputs := by
  simp [Account.rewarded, creditAccount, accountAppendHistory]

theorem position_congr {ledger ledger' : AccountLedger} (same : ledger'.keys = ledger.keys)
    (id : List Char) :
    Table.position Account.key id ledger'.accounts =
      Table.position Account.key id ledger.accounts := by
  have column (rows : List Account) : Table.position Account.key id rows =
      (rows.map Account.key).findIdx? (fun key => key = id) := by
    rw [List.findIdx?_map]
    rfl
  rw [column, column]
  exact congrArg _ same

/-- The outputs of one owner are all credited to the row of the owner. -/
theorem applyRewardOutputs_of_position {ledger : AccountLedger} {id : List Char} {i : Nat}
    (found : Table.position Account.key id ledger.accounts = some i) (fee : Int32)
    {outputs : List TxOutput} (owned : ∀ output ∈ outputs, output.owner.text = id) :
    (applyRewardOutputs ledger fee outputs).ok = true ∧
      (applyRewardOutputs ledger fee outputs).state.keys = ledger.keys ∧
      (applyRewardOutputs ledger fee outputs).state.accounts =
        ledger.accounts.modify i (Account.rewarded · id fee outputs) := by
  induction outputs generalizing ledger with
  | nil => exact ⟨rfl, rfl, (List.modify_id i ledger.accounts).symm⟩
  | cons output outputs ih =>
    rw [List.forall_mem_cons] at owned
    have keeps := (credits_creditAccount "SYSTEM".toList id output.amount fee).studentId
    have same := keys_modifyRow ledger i keeps
    obtain ⟨ok, keys, rows⟩ := ih ((position_congr same id).trans found) owned.2
    rw [applyRewardOutputs, owned.1, findOrCreateAccount_of_position found]
    refine ⟨ok, keys.trans same, ?_⟩
    simp only
    rw [rows, accounts_modifyRow, List.modify_modify_eq]
    exact Table.modify_congr fun account _ => (rewarded_cons account id fee output outputs).symm

/-- A reward to an id that has a row is credited to it, and changes no other row. -/
theorem ledgerApplyConfirmedBlock_of_mem_keys {ledger : Ledger} (model : ledger.model = .account)
    {id : List Char} (member : id ∈ ledger.accountLedger.keys) (block : Block) {tx : Transaction}
    (owned : ∀ output ∈ tx.outputs, output.owner.text = id) :
    let applied := ledgerApplyConfirmedBlock ledger block tx
    applied.ok = true ∧ OnlyRowOf id ledger applied.state ∧
      RowBecomes id (fun account =>
        if 0 < block.tokenReward then account.rewarded id tx.fee tx.outputs else account)
        ledger applied.state := by
  intro applied
  obtain ⟨i, found⟩ := exists_position_of_mem_keys member
  have inside := Table.position_lt Account.key found
  have here : ledger.accountLedger.find id = some ledger.accountLedger.accounts[i] := by
    rw [AccountLedger.find, Table.lookup_eq_getElem? Account.key found,
      List.getElem?_eq_getElem inside]
  by_cases rewards : 0 < block.tokenReward
  · obtain ⟨ok, keys, rows⟩ := applyRewardOutputs_of_position found tx.fee owned
    have result : applied = ledger.onAccounts (accountApplyReward ledger.accountLedger tx) := by
      simp only [applied, ledgerApplyConfirmedBlock, model, if_neg (Int32.not_le.mpr rewards)]
    rw [result]
    -- every other row stays, and the row of the id is where it was
    refine ⟨ok, ⟨rfl, rfl, keys, fun k elsewhere => ?_⟩, _, here, ?_⟩
    · have different : i ≠ k := by
        rintro rfl
        exact elsewhere (getElem?_keys found)
      exact (congrArg (·[k]?) rows).trans (List.getElem?_modify_ne _ _ different)
    · have there := (position_congr keys id).trans found
      simp only [if_pos rewards]
      refine (Table.lookup_eq_getElem? Account.key there).trans ((congrArg (·[i]?) rows).trans ?_)
      rw [List.getElem?_modify_eq, List.getElem?_eq_getElem inside, Option.map_eq_map,
        Option.map_some]
  · have result : applied = ⟨true, ledger, false⟩ := by
      simp only [applied, ledgerApplyConfirmedBlock, if_pos (Int32.not_lt.mp rewards)]
    rw [result]
    refine ⟨rfl, ⟨rfl, rfl, rfl, fun k _ => rfl⟩, _, here, ?_⟩
    simp only [if_neg rewards]
    exact here

/-- After any calls with ids of at most 19 characters the ids of the table are distinct, none
was removed or renamed since any earlier call, and every student has a row. So a reward to a
student succeeds: each of its amounts is on the balance of the row and, as there is memory for it
here, in its history, and no other row changes. -/
theorem account_table_keeps_students (env : Env) (registry : StudentRegistry)
    (calls : List AccountCall) (short : ∀ call ∈ calls, call.Short) :
    let initial := (ledgerInit .account registry).2
    let ledger := Runs.final (callStep env) initial calls
    ledger.accountLedger.keys.Nodup ∧ ledger.accountLedger.accounts.length ≤ maxStudents ∧
    (∀ earlier, earlier <+: calls →
      (Runs.final (callStep env) initial earlier).accountLedger.keys <+:
        ledger.accountLedger.keys) ∧
    (∀ id ∈ registry.ids, id ∈ ledger.accountLedger.keys) ∧
    ∀ (block : Block) (tx : Transaction), ∀ id ∈ registry.ids,
      (∀ output ∈ tx.outputs, output.owner.text = id) →
      let applied := ledgerApplyConfirmedBlock ledger block tx
      applied.ok = true ∧ OnlyRowOf id ledger applied.state ∧
        RowBecomes id (fun account =>
          if 0 < block.tokenReward then account.rewarded id tx.fee tx.outputs else account)
          ledger applied.state := by
  intro initial ledger
  obtain ⟨model, looked⟩ := lookedUp_run env (model_ledgerInit_account registry) short
  have students : ∀ id ∈ registry.ids, id ∈ ledger.accountLedger.keys :=
    fun id member => looked.prefix_keys.subset (mem_keys_ledgerInit member)
  refine ⟨looked.nodup (nodup_keys_ledgerInit _ registry), ledger.accountLedger.fits, ?_, students,
    ?_⟩
  · rintro earlier ⟨rest, rfl⟩
    rw [List.forall_mem_append] at short
    have before := lookedUp_run env (model_ledgerInit_account registry) short.1
    have after := lookedUp_run env before.1 short.2
    rw [← Runs.final_append] at after
    exact after.2.prefix_keys
  · intro block tx id member owned
    exact ledgerApplyConfirmedBlock_of_mem_keys model (students id member) block owned

open Sample

/-- After a credit to a miner and a refused transfer a reward of the sample registry: the amount
is the reward less the fee. -/
theorem account_table_keeps_students_sample :
    let ledger := Runs.final (callStep env) (ledgerInit .account registry).2
      [.creditMiner "pool".toList 20, .transfer "ALU002".toList "guest".toList 5]
    let block := { initBlockFields 1 0 [] with
      studentId := .strncpy "ALU001".toList, tokenReward := rewardLate }
    let tx := (createRewardTransaction env block).2
    let applied := ledgerApplyConfirmedBlock ledger block tx
    applied.ok = true ∧ OnlyRowOf "ALU001".toList ledger applied.state ∧
      RowBecomes "ALU001".toList (Account.rewarded · "ALU001".toList tx.fee tx.outputs)
        ledger applied.state := by
  intro ledger block tx applied
  have kept := account_table_keeps_students env registry
    [.creditMiner "pool".toList 20, .transfer "ALU002".toList "guest".toList 5]
    (by simp [AccountCall.Short, studentIdLen])
  obtain ⟨_, _, _, _, credited⟩ := kept
  have positive : 0 < block.tokenReward := by decide
  have result := credited block tx "ALU001".toList
    (by simp [StudentRegistry.ids, registry, CStr.strncpy])
    (by
      rw [outputs_createRewardTransaction env positive]
      simp [block, CStr.strncpy])
  simpa only [if_pos positive] using result

end Attendance
