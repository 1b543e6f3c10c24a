import Attendance.Ledger.Operations
import Attendance.Sample

/-!
# Histories are the journal, account by account

The histories of the accounts are all that is left of the calls that were made. Each is what
these calls noted under its id, in the order they were made, so that two accounts have noted the
transfers between them alike.
-/
namespace Attendance

open CText

/-- The ids a call notes something under, and the nodes. -/
def postings (env : Env) (ledger : Ledger) (op : LedgerOp) : List (List Char × TxHistoryNode) :=
  if (op.call env ledger).ok then
    match op with
    | .confirm block =>
      let tx := (createRewardTransaction env block).2
      tx.outputs.map fun output =>
        (output.owner.text, ⟨.strncpy "SYSTEM".toList, output.owner, output.amount, tx.fee,
          ledger.accountLedger.nonceOf output.owner.text⟩)
    | .creditMiner minerId amount =>
      [(minerId, ⟨.strncpy "MINER".toList, .strncpy minerId, amount, 0,
        ledger.accountLedger.nonceOf minerId⟩)]
    | .transfer sender recipient amount =>
      let node := transferNode sender recipient amount (ledger.accountLedger.nonceOf sender)
      [(sender, node), (recipient, node)]
    | .transferNonce sender recipient amount nonce =>
      let node := transferNode sender recipient amount nonce
      [(sender, node), (recipient, node)]
  else []

/-- What is noted under an id, the last node first. -/
def nodesOf (log : List (List Char × TxHistoryNode)) (id : List Char) : List TxHistoryNode :=
  ((log.filter fun posting => posting.1 = id).map Prod.snd).reverse

def AccountLedger.histories (ledger : AccountLedger) : List (List TxHistoryNode) :=
  ledger.accounts.map Account.history

/-- The histories of the table are what the log notes under its ids. -/
structure Journal (log : List (List Char × TxHistoryNode)) (ledger : AccountLedger) : Prop where
  distinct : ledger.keys.Nodup
  known : ∀ posting ∈ log, posting.1 ∈ ledger.keys
  histories : ledger.histories = ledger.keys.map (nodesOf log)

theorem nodesOf_append (log later : List (List Char × TxHistoryNode)) (id : List Char) :
    nodesOf (log ++ later) id = nodesOf later id ++ nodesOf log id := by
  simp [nodesOf]

private theorem histories_modifyRow_same (ledger : AccountLedger) (i : Nat)
    {f : Account → Account} (keeps : ∀ account, (f account).history = account.history) :
    (ledger.modifyRow i f).histories = ledger.histories :=
  Table.map_key_modify Account.history keeps ledger.accounts i

private theorem histories_modifyRow (ledger : AccountLedger) (i : Nat) {f : Account → Account}
    {node : TxHistoryNode} (notes : ∀ account, (f account).history = node :: account.history) :
    (ledger.modifyRow i f).histories = ledger.histories.modify i (node :: ·) :=
  Table.map_modify Account.history (g := (node :: ·)) notes ledger.accounts i

/-- Of the five assignments of a transfer, two note the node. -/
private theorem histories_postTransfer (ledger : AccountLedger) (i j : Nat)
    (sender recipient : List Char) (amount nonce : Int32) :
    (postTransfer ledger i j sender recipient amount nonce).histories =
      (ledger.histories.modify i (transferNode sender recipient amount nonce :: ·)).modify j
        (transferNode sender recipient amount nonce :: ·) := by
  simp only [postTransfer]
  rw [histories_modifyRow_same _ _ (by exact fun _ => rfl),
    histories_modifyRow _ _ (by exact fun _ => rfl), histories_modifyRow _ _ (by exact fun _ => rfl),
    histories_modifyRow_same _ _ (by exact fun _ => rfl),
    debitSender, histories_modifyRow_same _ _ (by exact fun _ => rfl)]
  rfl

/-! ### Steps -/

/-- A row is added for an id under which nothing is noted. -/
private theorem Journal.lookUp {log : List (List Char × TxHistoryNode)}
    {ledger : AccountLedger} (journal : Journal log ledger) {id : List Char}
    (short : id.length < studentIdLen) : Journal log (findOrCreateAccount ledger id).1 := by
  apply findOrCreateAccount_keeps journal
  intro longer absent rows
  have stored : (newAccount id).key = id := CStr.text_strncpy short
  have keys : longer.keys = ledger.keys ++ [id] := by simp [AccountLedger.keys, rows, stored]
  have unknown : id ∉ ledger.keys := notMem_keys_of_position absent
  have nothing : nodesOf log id = [] := by
    simp only [nodesOf, List.reverse_eq_nil_iff, List.map_eq_nil_iff, List.filter_eq_nil_iff,
      decide_eq_true_eq]
    exact fun posting member same => unknown (same ▸ journal.known posting member)
  constructor
  case distinct =>
    rw [keys, ← List.concat_eq_append]
    exact journal.distinct.concat unknown
  case known =>
    rw [keys]
    exact fun posting member => List.mem_append_left _ (journal.known posting member)
  case histories =>
    have column := journal.histories
    simp only [AccountLedger.histories] at column ⊢
    rw [rows, List.map_append, column, keys, List.map_append, List.map_singleton,
      List.map_singleton, nothing]
    rfl

/-- A node that is put in front of the history of an id is noted under it. -/
private theorem Journal.note {log : List (List Char × TxHistoryNode)}
    {ledger : AccountLedger} (journal : Journal log ledger) {i : Nat} {id : List Char}
    (row : ledger.keys[i]? = some id) (node : TxHistoryNode) {f : Account → Account}
    (keeps : ∀ account, (f account).studentId = account.studentId)
    (notes : ∀ account, (f account).history = node :: account.history) :
    Journal (log ++ [(id, node)]) (ledger.modifyRow i f) := by
  have keys := keys_modifyRow ledger i keeps
  constructor
  case distinct => exact keys ▸ journal.distinct
  case known =>
    rw [keys, List.forall_mem_append, List.forall_mem_singleton]
    exact ⟨journal.known, List.mem_of_getElem? row⟩
  case histories =>
    rw [histories_modifyRow ledger i notes, keys, journal.histories]
    apply Table.modify_map_of_nodup journal.distinct row
    · simp [nodesOf]
    · intro other different
      simp [nodesOf, Ne.symm different]

private theorem Journal.congr {log : List (List Char × TxHistoryNode)}
    {ledger ledger' : AccountLedger} (journal : Journal log ledger)
    (keys : ledger'.keys = ledger.keys) (histories : ledger'.histories = ledger.histories) :
    Journal log ledger' :=
  ⟨keys ▸ journal.distinct, keys ▸ journal.known, by rw [histories, keys, journal.histories]⟩

/-- Both parties of a transfer note it, the sender first. -/
private theorem Journal.transfer {log : List (List Char × TxHistoryNode)}
    {ledger : AccountLedger} (journal : Journal log ledger) {i j : Nat}
    {sender recipient : List Char} (senderRow : ledger.keys[i]? = some sender)
    (recipientRow : ledger.keys[j]? = some recipient) (amount nonce : Int32) :
    Journal (log ++ [(sender, transferNode sender recipient amount nonce),
        (recipient, transferNode sender recipient amount nonce)])
      (postTransfer ledger i j sender recipient amount nonce) := by
  have first := journal.note senderRow (transferNode sender recipient amount nonce)
    (f := (accountAppendHistory · sender recipient amount txFee nonce))
    (fun _ => rfl) (fun _ => rfl)
  have same : (ledger.modifyRow i
      (accountAppendHistory · sender recipient amount txFee nonce)).keys = ledger.keys :=
    keys_modifyRow _ _ (fun _ => rfl)
  have second := first.note (same ▸ recipientRow) (transferNode sender recipient amount nonce)
    (f := (accountAppendHistory · sender recipient amount txFee nonce))
    (fun _ => rfl) (fun _ => rfl)
  rw [List.append_assoc, List.singleton_append] at second
  apply second.congr
  · rw [keys_postTransfer, keys_modifyRow _ _ (by exact fun _ => rfl), same]
  · rw [histories_postTransfer, histories_modifyRow _ _ (by exact fun _ => rfl),
      histories_modifyRow _ _ (by exact fun _ => rfl)]
    rfl

/-- A credit is noted with the nonce of its owner. -/
private theorem Journal.credit {log : List (List Char × TxHistoryNode)}
    {ledger accounts : AccountLedger} (journal : Journal log ledger) {owner : List Char}
    (short : owner.length < studentIdLen) {i : Nat}
    (row : findOrCreateAccount ledger owner = (accounts, some i)) (source : List Char)
    (amount fee : Int32) :
    Journal (log ++ [(owner,
        ⟨.strncpy source, .strncpy owner, amount, fee, ledger.nonceOf owner⟩)])
      (accounts.modifyRow i (creditAccount · source owner amount fee)) := by
  have looked := journal.lookUp short
  rw [row] at looked
  have nonce := read_row_findOrCreateAccount Account.nonce (fun _ => rfl) row
  have there := getElem?_keys (position_findOrCreateAccount short row)
  have noted := looked.note there
    ⟨.strncpy source, .strncpy owner, amount, fee, ledger.nonceOf owner⟩
    (f := fun account => accountAppendHistory { account with balance := account.balance + amount }
      source owner amount fee (ledger.nonceOf owner))
    (fun _ => rfl) (fun _ => rfl)
  -- only the row of the owner is rewritten, and its nonce is the one that is noted
  have same : accounts.modifyRow i (creditAccount · source owner amount fee) =
      accounts.modifyRow i (fun account => accountAppendHistory
        { account with balance := account.balance + amount } source owner amount fee
        (ledger.nonceOf owner)) := by
    refine AccountLedger.ext (Table.modify_congr fun account there => ?_)
    have own : accounts.row i = account := by simp [AccountLedger.row, there]
    rw [own] at nonce
    rw [creditAccount, nonce, AccountLedger.nonceOf]
  rw [same]
  exact noted

private theorem postings_of_not_ok {env : Env} {ledger : Ledger} {op : LedgerOp}
    (failed : (op.call env ledger).ok = false) : postings env ledger op = [] := by
  unfold postings
  rw [failed]
  rfl

/-- The lookups do not change the nonce that is noted. -/
private theorem nonce_row_lookups {ledger : AccountLedger} {ids : List (List Char)}
    {sender : List Char} {i : Nat}
    (row : Table.position Account.key sender (lookups ledger ids).accounts = some i) :
    ((lookups ledger ids).row i).nonce = ledger.nonceOf sender := by
  have found := row_eq_of_position row
  have same : (lookups ledger ids).nonceOf sender = ledger.nonceOf sender :=
    lookups_keeps (fun table => table.nonceOf sender = ledger.nonceOf sender)
      (fun table id _ kept =>
        (read_findOrCreateAccount Account.nonce (fun _ => rfl) table id sender).trans kept) rfl
  rw [AccountLedger.nonceOf, found, Option.map_some, Option.getD_some] at same
  exact same

private theorem journal_confirm (env : Env) {ledger : Ledger} (block : Block)
    {log : List (List Char × TxHistoryNode)} (model : ledger.model = .account)
    (journal : Journal log ledger.accountLedger) :
    Journal (log ++ postings env ledger (.confirm block))
      (ledgerStep env ledger (.confirm block)).accountLedger := by
  simp only [postings, ledgerStep, LedgerOp.call]
  by_cases positive : 0 < block.tokenReward
  · have outputs := outputs_createRewardTransaction env positive
    have step := creditStep_ledgerApplyConfirmedBlock ledger positive outputs
    simp only [outputs, List.map_singleton]
    generalize ledgerApplyConfirmedBlock ledger block (createRewardTransaction env block).2 =
      outcome at step
    cases step with
    | added utxo => rw [model] at utxo; cases utxo
    | posted _ row =>
      have noted := journal.credit block.studentId.fits row "SYSTEM".toList
        (block.tokenReward - txFee) (createRewardTransaction env block).2.fee
      rw [CStr.strncpy_text] at noted
      exact noted
    | full => simpa using journal
  -- without a reward there is no output and nothing is noted
  · have nothing : (createRewardTransaction env block).2.outputs = [] := by
      simp [createRewardTransaction, Int32.not_lt.mp positive]
    have idle : ledgerApplyConfirmedBlock ledger block (createRewardTransaction env block).2 =
        ⟨true, ledger, false⟩ := if_pos (Int32.not_lt.mp positive)
    simpa [nothing, idle] using journal

private theorem journal_creditMiner (env : Env) {ledger : Ledger} {minerId : List Char}
    (short : minerId.length < studentIdLen) (amount : Int32)
    {log : List (List Char × TxHistoryNode)} (model : ledger.model = .account)
    (journal : Journal log ledger.accountLedger) :
    Journal (log ++ postings env ledger (.creditMiner minerId amount))
      (ledgerStep env ledger (.creditMiner minerId amount)).accountLedger := by
  rw [ledgerStep]
  by_cases positive : 0 < amount
  · have step : CreditStep ledger "MINER".toList minerId amount 0 _
        ((LedgerOp.creditMiner minerId amount).call env ledger) :=
      creditStep_ledgerCreditMiner env ledger minerId positive
    generalize result : (LedgerOp.creditMiner minerId amount).call env ledger = outcome at step
    cases step with
    | added utxo => rw [model] at utxo; cases utxo
    | posted _ row =>
      unfold postings
      rw [if_pos (by rw [result])]
      exact journal.credit short row "MINER".toList amount 0
    | full =>
      rw [postings_of_not_ok (by rw [result]), List.append_nil]
      exact journal
  · have idle : (LedgerOp.creditMiner minerId amount).call env ledger = ⟨false, ledger, false⟩ :=
      if_pos (Int32.not_lt.mp positive)
    rw [postings_of_not_ok (by rw [idle]), List.append_nil, idle]
    exact journal

private theorem journal_transfer (env : Env) {ledger : Ledger} {op : LedgerOp}
    {log : List (List Char × TxHistoryNode)} (model : ledger.model = .account)
    (transfer : ¬op.IsCredit) (journal : Journal log ledger.accountLedger)
    (short : ∀ id ∈ op.ids, id.length < studentIdLen) :
    Journal (log ++ postings env ledger op) (ledgerStep env ledger op).accountLedger := by
  have step := opStep env op (fun utxo => by rw [model] at utxo; cases utxo)
  have looked {ids : List (List Char)} (known : ∀ id ∈ ids, id ∈ op.ids) :
      Journal log (lookups ledger.accountLedger ids) :=
    lookups_keeps (Journal log) (fun _ id member kept => kept.lookUp (short id (known id member)))
      journal
  rw [ledgerStep]
  generalize result : op.call env ledger = outcome at step
  cases step with
  | @idle ok _ free =>
    -- what succeeds without doing anything is a credit of nothing
    cases ok with
    | true => exact absurd (free rfl).1 transfer
    | false =>
      rw [postings_of_not_ok (by rw [result]), List.append_nil]
      exact journal
  | lookedUp known =>
    -- a call that fails late may leave rows behind, but no nodes
    rw [postings_of_not_ok (by rw [result]), List.append_nil]
    exact looked known
  | credited _ _ _ _ _ credit => exact absurd credit transfer
  | added utxo | refused utxo =>
    rw [model] at utxo
    cases utxo
  | @posted sender recipient amount nonce found i j _ sends looked_eq _ _ senderRow recipientRow
      current =>
    subst looked_eq
    have ids : sender ∈ op.ids ∧ recipient ∈ op.ids := by
      rcases sends with ⟨rfl, _⟩ | rfl <;> simp [LedgerOp.ids]
    have row := senderRow (short sender ids.1)
    have noted := (looked (fun _ member => member)).transfer (getElem?_keys row)
      (getElem?_keys (recipientRow (short recipient ids.2))) amount nonce
    -- the node carries the nonce of the call, which is the one in the sender's row
    have own : postings env ledger op = [(sender, transferNode sender recipient amount nonce),
        (recipient, transferNode sender recipient amount nonce)] := by
      unfold postings
      rw [if_pos (by rw [result])]
      rcases sends with ⟨rfl, _⟩ | rfl
      · rw [current, nonce_row_lookups row]
      · rfl
    rw [own]
    exact noted

private theorem journal_step (env : Env) {ledger : Ledger} (op : LedgerOp)
    {log : List (List Char × TxHistoryNode)} (model : ledger.model = .account)
    (journal : Journal log ledger.accountLedger)
    (short : ∀ id ∈ op.ids, id.length < studentIdLen) :
    (ledgerStep env ledger op).model = .account ∧
      Journal (log ++ postings env ledger op) (ledgerStep env ledger op).accountLedger := by
  have step := opStep env op (fun utxo => by rw [model] at utxo; cases utxo)
  refine ⟨step.model.trans model, ?_⟩
  cases op with
  | confirm block => exact journal_confirm env block model journal
  | creditMiner minerId amount =>
    exact journal_creditMiner env (short minerId (by simp [LedgerOp.ids])) amount model journal
  | transfer | transferNonce => exact journal_transfer env model id journal short

/-! ### Runs -/

theorem journal_run (env : Env) (registry : StudentRegistry) (ops : List LedgerOp)
    (short : ∀ op ∈ ops, ∀ id ∈ op.ids, id.length < studentIdLen) :
    Journal (Runs.trace (ledgerStep env) (postings env) (ledgerInit .account registry).2 ops)
      (Runs.final (ledgerStep env) (ledgerInit .account registry).2 ops).accountLedger := by
  have initial : Journal [] (ledgerInit .account registry).2.accountLedger := by
    obtain ⟨ids, known, accounts⟩ := accountLedger_ledgerInit .account registry
    rw [accounts]
    exact lookups_keeps (Journal [])
      (fun _ id member kept => kept.lookUp (length_of_mem_ids (known id member)))
      ⟨List.nodup_nil, by simp, rfl⟩
  have guarded : Runs.Guarded (ledgerStep env)
      (fun _ op => ∀ id ∈ op.ids, id.length < studentIdLen) (ledgerInit .account registry).2 ops :=
    Runs.guarded_of_forall_mem (ledgerStep env) (fun op member _ => short op member) _
  exact (Runs.logged_invariant (ledgerStep env) (postings env)
    (fun log ledger => ledger.model = .account ∧ Journal log ledger.accountLedger)
    (fun log ledger op kept short => journal_step env op kept.1 kept.2 short)
    ⟨model_ledgerInit .account registry, initial⟩ guarded).2

theorem history_of_journal {log : List (List Char × TxHistoryNode)}
    {ledger : AccountLedger} (journal : Journal log ledger) {account : Account}
    (member : account ∈ ledger.accounts) : account.history = nodesOf log account.key := by
  obtain ⟨i, inside, rfl⟩ := List.getElem_of_mem member
  have column := congrArg (fun histories => histories[i]?) journal.histories
  simpa only [AccountLedger.histories, AccountLedger.keys, List.getElem?_map,
    List.getElem?_eq_getElem inside, Option.map_some, Option.some_inj] using column

/-- As long as there is memory for every node: after any calls on the accounts, with ids that fit
their fields, everything that was noted has an account, and the history of each account is what
the calls noted under its id, the last first, so that no node is lost, doubled or moved. -/
theorem histories_are_journal (env : Env) (registry : StudentRegistry) (ops : List LedgerOp)
    (short : ∀ op ∈ ops, ∀ id ∈ op.ids, id.length < studentIdLen) :
    let start := (ledgerInit .account registry).2
    let log := Runs.trace (ledgerStep env) (postings env) start ops
    let ledger := (Runs.final (ledgerStep env) start ops).accountLedger
    (∀ posting ∈ log, posting.1 ∈ ledger.keys) ∧
      ∀ account ∈ ledger.accounts, account.history = nodesOf log account.key := by
  intro start log ledger
  have journal := journal_run env registry ops short
  exact ⟨journal.known, fun account member => history_of_journal journal member⟩

/-- A credit, two transfers and one that is refused. -/
def notedCalls : List LedgerOp :=
  [.creditMiner "ALU001".toList 20, .transferNonce "ALU001".toList "ALU002".toList 3 0,
    .transferNonce "ALU001".toList "ALU002".toList 3 0,
    .transfer "ALU001".toList "ALU002".toList 4]

theorem histories_are_journal_sample :
    (Runs.final (ledgerStep Sample.env) (ledgerInit .account Sample.registry).2
      notedCalls).accountLedger.accounts.map (fun account => account.history.length) = [3, 2] ∧
    ∀ account ∈ (Runs.final (ledgerStep Sample.env) (ledgerInit .account Sample.registry).2
        notedCalls).accountLedger.accounts,
      account.history = nodesOf (Runs.trace (ledgerStep Sample.env) (postings Sample.env)
        (ledgerInit .account Sample.registry).2 notedCalls) account.key :=
  ⟨by decide +kernel,
    (histories_are_journal Sample.env Sample.registry notedCalls (by decide +kernel)).2⟩

/-- The node says that one of the ids sent something to the other. -/
def TxHistoryNode.Between (payer payee : List Char) (node : TxHistoryNode) : Prop :=
  node.sender.text = payer ∧ node.recipient.text = payee

instance (payer payee : List Char) : DecidablePred (TxHistoryNode.Between payer payee) :=
  fun _ => inferInstanceAs (Decidable (_ ∧ _))

/-- What the log notes under an id about payments from one id to another. -/
private def paymentsOf (payer payee : List Char) (log : List (List Char × TxHistoryNode))
    (id : List Char) : List TxHistoryNode :=
  (nodesOf log id).filter (TxHistoryNode.Between payer payee)

/-- The payments are noted alike under both ids, and under no other. -/
private def EnteredTwice (payer payee : List Char) (log : List (List Char × TxHistoryNode)) :
    Prop :=
  paymentsOf payer payee log payer = paymentsOf payer payee log payee ∧
    ∀ other, other ≠ payer → other ≠ payee → paymentsOf payer payee log other = []

private theorem EnteredTwice.append {payer payee : List Char}
    {log later : List (List Char × TxHistoryNode)} (first : EnteredTwice payer payee log)
    (second : EnteredTwice payer payee later) : EnteredTwice payer payee (log ++ later) := by
  unfold EnteredTwice paymentsOf at *
  simp only [nodesOf_append, List.filter_append]
  refine ⟨by rw [first.1, second.1], fun other notPayer notPayee => ?_⟩
  rw [first.2 other notPayer notPayee, second.2 other notPayer notPayee, List.append_nil]

private theorem enteredTwice_of_unrelated {payer payee : List Char}
    {log : List (List Char × TxHistoryNode)}
    (unrelated : ∀ posting ∈ log, ¬posting.2.Between payer payee) :
    EnteredTwice payer payee log := by
  have none (id : List Char) : paymentsOf payer payee log id = [] := by
    unfold paymentsOf nodesOf
    rw [List.filter_eq_nil_iff]
    simp only [List.mem_reverse, List.mem_map, List.mem_filter, decide_eq_true_eq]
    rintro node ⟨posting, ⟨member, _⟩, rfl⟩
    exact unrelated posting member
  exact ⟨by rw [none, none], fun other _ _ => none other⟩

private theorem enteredTwice_transfer {payer payee sender recipient : List Char}
    (different : payer ≠ payee) (short : sender.length < studentIdLen)
    (short' : recipient.length < studentIdLen) (amount nonce : Int32) :
    EnteredTwice payer payee [(sender, transferNode sender recipient amount nonce),
      (recipient, transferNode sender recipient amount nonce)] := by
  have between : (transferNode sender recipient amount nonce).Between payer payee ↔
      sender = payer ∧ recipient = payee := by
    rw [TxHistoryNode.Between, transferNode, CStr.text_strncpy short, CStr.text_strncpy short']
  by_cases parties : sender = payer ∧ recipient = payee
  · have related := between.mpr parties
    obtain ⟨rfl, rfl⟩ := parties
    refine ⟨?_, fun other notPayer notPayee => ?_⟩
    · simp [paymentsOf, nodesOf, related, different, different.symm]
    · simp [paymentsOf, nodesOf, Ne.symm notPayer, Ne.symm notPayee]
  · apply enteredTwice_of_unrelated
    simp [between, parties]

private theorem enteredTwice_postings (env : Env) (ledger : Ledger) {op : LedgerOp}
    {payer payee : List Char} (different : payer ≠ payee) (notSystem : payer ≠ "SYSTEM".toList)
    (notMiner : payer ≠ "MINER".toList) (short : ∀ id ∈ op.ids, id.length < studentIdLen) :
    EnteredTwice payer payee (postings env ledger op) := by
  unfold postings
  split
  · cases op with
    -- a credit names its source as the sender
    | confirm block =>
      apply enteredTwice_of_unrelated
      rw [List.forall_mem_map]
      rintro output _ ⟨sender, _⟩
      exact notSystem sender.symm
    | creditMiner minerId amount =>
      apply enteredTwice_of_unrelated
      rw [List.forall_mem_singleton]
      rintro ⟨sender, _⟩
      exact notMiner sender.symm
    | transfer sender recipient amount =>
      exact enteredTwice_transfer different (short sender (by simp [LedgerOp.ids]))
        (short recipient (by simp [LedgerOp.ids])) amount _
    | transferNonce sender recipient amount nonce =>
      exact enteredTwice_transfer different (short sender (by simp [LedgerOp.ids]))
        (short recipient (by simp [LedgerOp.ids])) amount nonce
  · exact enteredTwice_of_unrelated (by simp)

/-- As long as there is memory for every node: after any calls on the accounts, with ids that fit
their fields, what one account has sent to another is in the histories of both, node by node and in
the same order, and in no other history. An account with a name that stands for the source of a
credit, `SYSTEM` or `MINER`, is not meant. -/
theorem transfers_entered_twice (env : Env) (registry : StudentRegistry) (ops : List LedgerOp)
    (short : ∀ op ∈ ops, ∀ id ∈ op.ids, id.length < studentIdLen) :
    let accounts := (Runs.final (ledgerStep env) (ledgerInit .account registry).2
      ops).accountLedger.accounts
    ∀ payer ∈ accounts, ∀ payee ∈ accounts, payer.key ≠ payee.key →
      payer.key ≠ "SYSTEM".toList → payer.key ≠ "MINER".toList →
      payer.history.filter (TxHistoryNode.Between payer.key payee.key) =
        payee.history.filter (TxHistoryNode.Between payer.key payee.key) ∧
      ∀ other ∈ accounts, other.key ≠ payer.key → other.key ≠ payee.key →
        other.history.filter (TxHistoryNode.Between payer.key payee.key) = [] := by
  intro accounts payer payerMember payee payeeMember different notSystem notMiner
  have journal := journal_run env registry ops short
  have guarded : Runs.Guarded (ledgerStep env)
      (fun _ op => ∀ id ∈ op.ids, id.length < studentIdLen) (ledgerInit .account registry).2 ops :=
    Runs.guarded_of_forall_mem (ledgerStep env) (fun op member _ => short op member) _
  have initial : EnteredTwice payer.key payee.key [] := enteredTwice_of_unrelated (by simp)
  -- a call is posted to both parties or to neither, so each step keeps the two equal
  have entered := Runs.logged_invariant (ledgerStep env) (postings env)
    (fun log _ => EnteredTwice payer.key payee.key log)
    (fun log ledger op kept short => kept.append
      (enteredTwice_postings env ledger different notSystem notMiner short))
    initial guarded
  rw [List.nil_append] at entered
  rw [history_of_journal journal payerMember, history_of_journal journal payeeMember]
  refine ⟨entered.1, fun other member notPayer notPayee => ?_⟩
  rw [history_of_journal journal member]
  exact entered.2 other.key notPayer notPayee

theorem transfers_entered_twice_sample :
    let accounts := (Runs.final (ledgerStep Sample.env) (ledgerInit .account Sample.registry).2
      notedCalls).accountLedger.accounts
    (∃ payer ∈ accounts, ∃ payee ∈ accounts, payer.key ≠ payee.key ∧
      (payer.history.filter (TxHistoryNode.Between payer.key payee.key)).length = 2) ∧
    ∀ payer ∈ accounts, ∀ payee ∈ accounts, payer.key ≠ payee.key →
      payer.history.filter (TxHistoryNode.Between payer.key payee.key) =
        payee.history.filter (TxHistoryNode.Between payer.key payee.key) := by
  intro accounts
  have named : ∀ account ∈ (Runs.final (ledgerStep Sample.env)
      (ledgerInit .account Sample.registry).2 notedCalls).accountLedger.accounts,
      account.key ≠ "SYSTEM".toList ∧ account.key ≠ "MINER".toList := by
    decide +kernel
  have twice := transfers_entered_twice Sample.env Sample.registry notedCalls (by decide +kernel)
  refine ⟨by decide +kernel, fun payer first payee second different => ?_⟩
  exact (twice payer first payee second different (named payer first).1 (named payer first).2).1

end Attendance
