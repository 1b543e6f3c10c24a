import Attendance.Ledger.Operations
import Attendance.Sample

/-!
# What histories explain

`account_append_history` notes every credit with its owner and every transfer with both
parties. The balance of an account follows from its history as long as no account sends
to itself: then the one payment stands twice in one history. Ids count as the same when
the 19 characters that are stored agree.
-/
namespace Attendance

open CText MachineInt Calls

/-- What a node says about the balance of an account: the recipient gains the amount, the
sender loses the amount and the fee. -/
def TxHistoryNode.effect (studentId : CStr studentIdLen) (node : TxHistoryNode) : Int :=
  (if node.recipient = studentId then node.amount.toInt else 0) -
    if node.sender = studentId then node.amount.toInt + node.fee.toInt else 0

def Account.historyTotal (account : Account) : Int :=
  (account.history.map (fun node => node.effect account.studentId)).sum

def Account.Explained (account : Account) : Prop :=
  account.balance.toInt = account.historyTotal

/-- Every balance follows from the history beside it. -/
def AccountLedger.Explained (ledger : AccountLedger) : Prop :=
  ∀ account ∈ ledger.accounts, account.Explained

instance (account : Account) : Decidable account.Explained := inferInstanceAs (Decidable (_ = _))

instance (ledger : AccountLedger) : Decidable ledger.Explained :=
  inferInstanceAs (Decidable (∀ account ∈ ledger.accounts, account.Explained))

/-- No account is named after a source of credits. -/
def AccountLedger.SourcesUnnamed (ledger : AccountLedger) : Prop :=
  ∀ account ∈ ledger.accounts, account.key ≠ "SYSTEM".toList ∧ account.key ≠ "MINER".toList

instance (ledger : AccountLedger) : Decidable ledger.SourcesUnnamed :=
  inferInstanceAs (Decidable (∀ account ∈ ledger.accounts, _ ∧ _))

/-- The call is a transfer between ids that are stored alike, and it is accepted.
`ledger_transfer` looks up the sender once more than `account_transfer`. -/
def LedgerOp.SelfSending (ledger : Ledger) : LedgerOp → Prop
  | .transfer sender recipient amount =>
    0 < amount ∧ sender ≠ recipient ∧
    (CStr.strncpy sender : CStr studentIdLen) = .strncpy recipient ∧
    TransferAccepted (lookups ledger.accountLedger [sender]) sender recipient amount
      (ledger.accountLedger.nonceOf sender)
  | .transferNonce sender recipient amount nonce =>
    (CStr.strncpy sender : CStr studentIdLen) = .strncpy recipient ∧
    TransferAccepted ledger.accountLedger sender recipient amount nonce
  | .confirm _ | .creditMiner _ _ => False

instance (ledger : Ledger) : (op : LedgerOp) → Decidable (op.SelfSending ledger)
  | .transfer _ _ _ => inferInstanceAs (Decidable (_ ∧ _ ∧ _ ∧ _))
  | .transferNonce _ _ _ _ => inferInstanceAs (Decidable (_ ∧ _))
  | .confirm _ | .creditMiner _ _ => inferInstanceAs (Decidable False)

/-! ### Rows -/

private theorem explained_iff_rows {ledger : AccountLedger} :
    ledger.Explained ↔ ∀ k < ledger.accounts.length, (ledger.row k).Explained := by
  have row {k : Nat} (inside : k < ledger.accounts.length) :
      ledger.row k = ledger.accounts[k] := by
    simp [AccountLedger.row, inside]
  constructor
  · intro all k inside
    rw [row inside]
    exact all _ (List.getElem_mem inside)
  · intro all account member
    obtain ⟨k, inside, rfl⟩ := List.getElem_of_mem member
    rw [← row inside]
    exact all k inside

/-- A lookup adds a row with nothing to explain. -/
private theorem explained_lookups {ledger : AccountLedger} (ids : List (List Char))
    (explained : ledger.Explained) : (lookups ledger ids).Explained := by
  refine lookups_keeps AccountLedger.Explained (fun ledger id _ explained => ?_) explained
  apply findOrCreateAccount_keeps explained
  intro longer _ rows
  rw [AccountLedger.Explained, rows, List.forall_mem_append]
  exact ⟨explained, by simp [Account.Explained, Account.historyTotal, newAccount]⟩

/-- A credit adds its amount to the balance and to the history of its owner. -/
private theorem explained_credited {ledger accounts : AccountLedger} {source owner : List Char}
    {amount : Int32} {i : Nat} (fee : Int32) (explained : ledger.Explained)
    (row : findOrCreateAccount ledger owner = (accounts, some i))
    (unnamed : (CStr.strncpy source : CStr studentIdLen) ≠ .strncpy owner)
    (fits : addOverflows (accounts.row i).balance amount = false) :
    (accounts.modifyRow i (creditAccount · source owner amount fee)).Explained := by
  have looked : accounts = lookups ledger [owner] := by
    simp [lookups, row]
  have before := explained_iff_rows.mp (looked ▸ explained_lookups [owner] explained)
  rw [explained_iff_rows]
  intro k inside
  rw [accounts_modifyRow, List.length_modify] at inside
  rw [row_modifyRow inside]
  split
  next same =>
    -- the row credited: balance and history grow by the same amount
    subst same
    have held := before i inside
    have gain : (⟨.strncpy source, .strncpy owner, amount, fee, (accounts.row i).nonce⟩ :
        TxHistoryNode).effect (accounts.row i).studentId = amount.toInt := by
      rw [studentId_findOrCreateAccount row]
      simp [TxHistoryNode.effect, unnamed]
    simp only [Account.Explained, Account.historyTotal] at held ⊢
    simp only [creditAccount, accountAppendHistory, List.map_cons, List.sum_cons, gain,
      toInt_add_of_fits fits]
    omega
  next => exact before k inside

private theorem effect_transferNode (studentId : CStr studentIdLen) (sender recipient : List Char)
    (amount nonce : Int32) :
    (transferNode sender recipient amount nonce).effect studentId =
      (if .strncpy recipient = studentId then amount.toInt else 0) -
        if .strncpy sender = studentId then amount.toInt + txFee.toInt else 0 := rfl

/-- An accepted transfer is explained exactly if its parties are stored under different ids. -/
private theorem explained_postTransfer_iff {ledger : AccountLedger} {i j : Nat}
    {sender recipient : List Char} {amount : Int32} (nonce : Int32) (explained : ledger.Explained)
    (inside : i < ledger.accounts.length) (inside' : j < ledger.accounts.length)
    (senderId : (ledger.row i).studentId = .strncpy sender)
    (recipientId : (ledger.row j).studentId = .strncpy recipient)
    (fits : addOverflows amount txFee = false) (fits' : postOverflows ledger i j amount = false) :
    (postTransfer ledger i j sender recipient amount nonce).Explained ↔
      (CStr.strncpy sender : CStr studentIdLen) ≠ .strncpy recipient := by
  simp only [postOverflows, Bool.or_eq_false_iff] at fits'
  obtain ⟨⟨debit, credit⟩, _⟩ := fits'
  have one : (txFee : Int32).toInt = 1 := rfl
  have paid : ((ledger.row i).balance - (amount + txFee)).toInt =
      (ledger.row i).balance.toInt - amount.toInt - 1 := by
    rw [toInt_sub_of_fits debit, toInt_add_of_fits fits]
    omega
  rw [balance_debitSender amount inside'] at credit
  have before := explained_iff_rows.mp explained
  have senderBefore := before i inside
  have recipientBefore := before j inside'
  have length : (postTransfer ledger i j sender recipient amount nonce).accounts.length =
      ledger.accounts.length := by
    simp [postTransfer, debitSender]
  rw [explained_iff_rows, length]
  simp only [Account.Explained, Account.historyTotal] at before senderBefore recipientBefore ⊢
  constructor
  · intro after same
    have senderAfter := after i inside
    have recipientAfter := after j inside'
    rw [row_postTransfer sender recipient amount nonce inside] at senderAfter
    rw [row_postTransfer sender recipient amount nonce inside'] at recipientAfter
    by_cases one_row : i = j
    -- one row loses the fee once, and its history says so twice
    · subst one_row
      rw [if_pos rfl] at credit
      simp only [if_true, List.map_cons, List.sum_cons, effect_transferNode, senderId, ← same]
        at senderAfter
      rw [toInt_add_of_fits credit, paid, ← senderId] at senderAfter
      omega
    -- each of two rows is noted to have lost the fee
    · have other : j ≠ i := Ne.symm one_row
      rw [if_neg one_row] at credit
      simp only [if_true, if_neg other, List.map_cons, List.sum_cons, effect_transferNode,
        senderId, ← same, paid] at senderAfter
      simp only [if_true, if_neg one_row, List.map_cons, List.sum_cons, effect_transferNode,
        recipientId, same, toInt_add_of_fits credit] at recipientAfter
      rw [← senderId] at senderAfter
      rw [← recipientId] at recipientAfter
      omega
  · intro different k inside''
    have two_rows : i ≠ j := by
      rintro rfl
      exact different (senderId.symm.trans recipientId)
    rw [if_neg two_rows] at credit
    rw [row_postTransfer sender recipient amount nonce inside'']
    by_cases isSender : i = k
    · subst isSender
      simp only [if_true, if_neg two_rows.symm, List.map_cons, List.sum_cons, effect_transferNode,
        senderId, if_neg different.symm, paid]
      rw [← senderId]
      omega
    · by_cases isRecipient : j = k
      · subst isRecipient
        simp only [if_true, if_neg isSender, List.map_cons, List.sum_cons, effect_transferNode,
          recipientId, if_neg different, toInt_add_of_fits credit]
        rw [← recipientId]
        omega
      · simpa only [if_neg isSender, if_neg isRecipient] using before k inside''

/-! ### Calls -/

private theorem explained_accountTransfer_iff {ledger : AccountLedger}
    {sender recipient : List Char} {amount nonce : Int32} (explained : ledger.Explained)
    (inRange : (accountTransfer ledger sender recipient amount nonce).overflow = false) :
    (accountTransfer ledger sender recipient amount nonce).state.Explained ↔
      ¬((CStr.strncpy sender : CStr studentIdLen) = .strncpy recipient ∧
        TransferAccepted ledger sender recipient amount nonce) := by
  have looked := explained_lookups [sender, recipient] explained
  rcases accountTransfer_cases ledger sender recipient amount nonce with
    ⟨refused, result⟩ | ⟨accepted, i, j, senderRow, recipientRow, _, _, result⟩
  · rw [result]
    simp [looked, refused]
  · rw [result] at inRange ⊢
    obtain ⟨fits, fits'⟩ := Bool.or_eq_false_iff.mp inRange
    obtain ⟨inside, same⟩ := row_lookups senderRow recipient
    have senderId := studentId_findOrCreateAccount senderRow
    rw [← same] at senderId
    rw [explained_postTransfer_iff nonce looked inside (findOrCreateAccount_lt recipientRow)
      senderId (studentId_findOrCreateAccount recipientRow) fits fits']
    simp [accepted]

private theorem explained_transfer_iff (env : Env) {ledger : Ledger} {sender recipient : List Char}
    {amount : Int32} (model : ledger.model = .account)
    (explained : ledger.accountLedger.Explained)
    (inRange : InRange env ledger (.transfer sender recipient amount)) :
    (ledgerStep env ledger (.transfer sender recipient amount)).accountLedger.Explained ↔
      ¬(LedgerOp.transfer sender recipient amount).SelfSending ledger := by
  simp only [ledgerStep, InRange, LedgerOp.call, ledgerTransfer, LedgerOp.SelfSending] at *
  by_cases positive : 0 < amount
  · rw [if_neg (Int32.not_le.mpr positive)] at inRange ⊢
    by_cases same : sender = recipient
    · simp [same, explained]
    · rw [if_neg same] at inRange ⊢
      simp only [model, positive, same, ne_eq, not_false_eq_true, true_and] at inRange ⊢
      cases result : findOrCreateAccount ledger.accountLedger sender with
      | mk accounts row =>
        have looked : lookups ledger.accountLedger [sender] = accounts := by
          simp [lookups, result]
        rw [result] at inRange
        rw [looked]
        cases row with
        -- without a row for the sender the nonce is not read
        | none =>
          have unchanged := findOrCreateAccount_none result
          simp [Ledger.onAccounts, TransferAccepted, unchanged, result, explained]
        | some i =>
          have nonce := read_row_findOrCreateAccount Account.nonce (fun _ => rfl) result
          have kept := looked ▸ explained_lookups [sender] explained
          rw [AccountLedger.nonceOf, ← nonce]
          exact explained_accountTransfer_iff kept inRange
  · rw [if_pos (Int32.not_lt.mp positive)]
    simp [positive, explained]

/-- Between two states in which no account is named after a source, a call in range keeps
all balances explained exactly if it is no transfer to oneself. -/
private theorem explained_step_iff (env : Env) {ledger : Ledger} {op : LedgerOp}
    (model : ledger.model = .account) (inRange : InRange env ledger op)
    (unnamed : (ledgerStep env ledger op).accountLedger.SourcesUnnamed)
    (explained : ledger.accountLedger.Explained) :
    (ledgerStep env ledger op).accountLedger.Explained ↔ ¬op.SelfSending ledger := by
  by_cases credit : op.IsCredit
  · have noTransfer : ¬op.SelfSending ledger := by
      cases op with
      | confirm | creditMiner => exact id
      | transfer | transferNonce => exact absurd credit id
    refine iff_of_true ?_ noTransfer
    rw [InRange] at inRange
    rw [ledgerStep] at unnamed ⊢
    rcases credit_account_cases env model credit with
      ⟨ok, _, result⟩ |
      ⟨source, owner, amount, fee, accounts, i, credits, row, result⟩
    · rwa [result]
    · rw [result] at inRange unnamed ⊢
      refine explained_credited fee explained row ?_ inRange
      have inside := findOrCreateAccount_lt row
      -- the owner has a row now, so it is not the source
      have named := unnamed (creditAccount (accounts.row i) source owner amount fee) (by
        rw [Ledger.onAccounts, accounts_modifyRow]
        refine List.mem_of_getElem? (i := i) ?_
        simp [AccountLedger.row, inside])
      intro same
      have key : (creditAccount (accounts.row i) source owner amount fee).key =
          (CStr.strncpy source : CStr studentIdLen).text :=
        congrArg CStr.text ((studentId_findOrCreateAccount row).trans same.symm)
      rw [key] at named
      rcases credits.named with rfl | rfl
      · exact named.1 rfl
      · exact named.2 rfl
  · cases op with
    | confirm | creditMiner => exact absurd trivial credit
    | transfer sender recipient amount => exact explained_transfer_iff env model explained inRange
    | transferNonce sender recipient amount nonce =>
      simp only [ledgerStep, InRange, LedgerOp.call, ledgerTransferWithNonce, model,
        LedgerOp.SelfSending] at *
      exact explained_accountTransfer_iff explained inRange

/-! ### Runs -/

/-- In the account model, in every run in which no `int` overflows and no account is named
after a source of credits, the histories explain the balances in every state exactly if no
step is an accepted transfer between ids that are stored alike. -/
theorem histories_explain_balances_iff (env : Env) (registry : StudentRegistry)
    (ops : List LedgerOp)
    (inRange : Runs.Guarded (ledgerStep env) (InRange env) (ledgerInit .account registry).2 ops)
    (unnamed : Runs.Throughout (ledgerStep env) (fun ledger => ledger.accountLedger.SourcesUnnamed)
      (ledgerInit .account registry).2 ops) :
    Runs.Throughout (ledgerStep env) (fun ledger => ledger.accountLedger.Explained)
      (ledgerInit .account registry).2 ops ↔
    Runs.Guarded (ledgerStep env) (fun ledger op => ¬op.SelfSending ledger)
      (ledgerInit .account registry).2 ops := by
  have initial : (ledgerInit .account registry).2.accountLedger.Explained := by
    obtain ⟨ids, _, accounts⟩ := accountLedger_ledgerInit .account registry
    rw [accounts]
    exact explained_lookups ids (by simp [AccountLedger.Explained, AccountLedger.empty])
  have sides := inRange.and (Runs.guarded_of_throughout (ledgerStep env) unnamed)
  apply Runs.throughout_iff_guarded (ledgerStep env)
    (I := fun ledger => ledger.model = .account) ?_ ?_ (model_ledgerInit .account registry)
    initial sides
  · intro ledger op model _
    have step := @opStep env ledger op (fun utxo => by rw [model] at utxo; cases utxo)
    exact step.model.trans model
  · rintro ledger op model ⟨fits, _, after⟩ explained
    exact explained_step_iff env model fits after explained

/-- A miner's credit and a transfer of each kind. -/
theorem histories_explain_balances_iff_sample :
    let ops := [.creditMiner "ALU001".toList 20,
      .transferNonce "ALU001".toList "ALU002".toList 3 0,
      .transfer "ALU001".toList "ALU002".toList 4]
    Runs.Throughout (ledgerStep Sample.env) (fun ledger => ledger.accountLedger.Explained)
      (ledgerInit .account Sample.registry).2 ops ↔
    Runs.Guarded (ledgerStep Sample.env) (fun ledger op => ¬op.SelfSending ledger)
      (ledgerInit .account Sample.registry).2 ops :=
  histories_explain_balances_iff Sample.env Sample.registry _ (by decide +kernel)
    (by decide +kernel)

/-- A miner with 20 tokens sends 5 to itself: it has 19 left, and its history says 18. -/
theorem self_transfer_noted_twice :
    let ops := [.creditMiner "ALU001".toList 20,
      .transferNonce "ALU001".toList "ALU001".toList 5 0]
    let start := (ledgerInit .account Sample.registry).2
    Runs.Guarded (ledgerStep Sample.env) (InRange Sample.env) start ops ∧
    Runs.Throughout (ledgerStep Sample.env) (fun ledger => ledger.accountLedger.SourcesUnnamed)
      start ops ∧
    ¬Runs.Throughout (ledgerStep Sample.env) (fun ledger => ledger.accountLedger.Explained)
      start ops := by
  decide +kernel

end Attendance
