import Attendance.Displays
import Attendance.Foundation.Heap
import Attendance.Ledger.Operations

/-!
# The ledger in memory

`ledger.c` with the histories of the accounts as the linked lists they are: `calloc` may
return `NULL`, `free_account_history` releases the nodes, and an access to a node that is
not in use makes the call `none`. What does not touch a node is shared with the model on
lists, to which every call is related.
-/
namespace Attendance.InMemory

open CText MachineInt Heap

abbrev Address := Nat

abbrev Calloc := Allocator Address

/-- An `Account`; `NULL` is `none`. The program has no field `refused`: it holds the nodes that
were not made, for want of memory, and nothing is decided by it. -/
structure Account where
  studentId : CStr studentIdLen
  balance : Int32 := 0
  nonce : Int32 := 0
  history : Option Address := none
  refused : List TxHistoryNode := []

abbrev Account.key (account : Account) : List Char := account.studentId.text

/-- The table, with the history nodes on the heap and the number of calls of `calloc` so far. -/
@[ext] structure AccountLedger where
  accounts : List Account
  fits : accounts.length ≤ maxStudents
  heap : Store Address TxHistoryNode
  calls : Nat

structure Ledger where
  model : LedgerModel
  utxoSet : UTXOSet
  accountLedger : AccountLedger

def AccountLedger.row (ledger : AccountLedger) (i : Nat) : Account :=
  ledger.accounts.getD i { studentId := .empty }

def AccountLedger.modifyRow (ledger : AccountLedger) (i : Nat) (f : Account → Account) :
    AccountLedger :=
  { ledger with
    accounts := ledger.accounts.modify i f
    fits := by simpa using ledger.fits }

def findOrCreateAccount (ledger : AccountLedger) (studentId : List Char) :
    AccountLedger × Option Nat :=
  match Table.position Account.key studentId ledger.accounts with
  | some i => (ledger, some i)
  | none =>
    if room : ledger.accounts.length < maxStudents then
      ({ ledger with
          accounts := ledger.accounts ++ [{ studentId := .strncpy studentId }]
          fits := by simpa [Nat.succ_le_iff] using room },
        some ledger.accounts.length)
    else (ledger, none)

/-- The row is given by its position. -/
def accountAppendHistory (calloc : Calloc) (ledger : AccountLedger) (i : Nat)
    (sender recipient : List Char) (amount fee nonce : Int32) : AccountLedger :=
  let called := { ledger with calls := ledger.calls + 1 }
  let value : TxHistoryNode := ⟨.strncpy sender, .strncpy recipient, amount, fee, nonce⟩
  match calloc.pick ledger.calls ledger.heap.keys with
  -- without memory the history goes without the node
  | none =>
    called.modifyRow i (fun account => { account with refused := value :: account.refused })
  | some node =>
    { called with heap := ledger.heap.insert node ⟨value, (ledger.row i).history⟩ }.modifyRow i
      (fun account => { account with history := some node })

/-- The assignment to the balance and the call of `account_append_history` after it. -/
def creditAccount (calloc : Calloc) (ledger : AccountLedger) (i : Nat)
    (source owner : List Char) (amount fee : Int32) : AccountLedger :=
  let credited := ledger.modifyRow i
    (fun account => { account with balance := account.balance + amount })
  accountAppendHistory calloc credited i source owner amount fee (ledger.row i).nonce

/-- The loop of `account_apply_reward` over the remaining outputs. -/
def applyRewardOutputs (calloc : Calloc) (ledger : AccountLedger) (fee : Int32) :
    List TxOutput → Outcome AccountLedger
  | [] => ⟨true, ledger, false⟩
  | output :: outputs =>
    match findOrCreateAccount ledger output.owner.text with
    | (ledger, none) => ⟨false, ledger, false⟩
    | (ledger, some i) =>
      let rest := applyRewardOutputs calloc
        (creditAccount calloc ledger i "SYSTEM".toList output.owner.text output.amount fee)
        fee outputs
      ⟨rest.ok, rest.state,
        addOverflows (ledger.row i).balance output.amount || rest.overflow⟩

def accountApplyReward (calloc : Calloc) (ledger : AccountLedger) (tx : Transaction) :
    Outcome AccountLedger :=
  applyRewardOutputs calloc ledger tx.fee tx.outputs

def debitSender (ledger : AccountLedger) (senderRow : Nat) (amount : Int32) : AccountLedger :=
  ledger.modifyRow senderRow
    (fun account => { account with balance := account.balance - (amount + txFee) })

/-- The assignments of an accepted transfer, with a call of `calloc` for each party. -/
def postTransfer (calloc : Calloc) (ledger : AccountLedger) (senderRow recipientRow : Nat)
    (sender recipient : List Char) (amount nonce : Int32) : AccountLedger :=
  let credited := (debitSender ledger senderRow amount).modifyRow recipientRow
    (fun account => { account with balance := account.balance + amount })
  let noted := accountAppendHistory calloc credited senderRow sender recipient amount txFee nonce
  let notedTwice :=
    accountAppendHistory calloc noted recipientRow sender recipient amount txFee nonce
  notedTwice.modifyRow senderRow (fun account => { account with nonce := account.nonce + 1 })

def postOverflows (ledger : AccountLedger) (senderRow recipientRow : Nat) (amount : Int32) :
    Bool :=
  subOverflows (ledger.row senderRow).balance (amount + txFee) ||
    addOverflows ((debitSender ledger senderRow amount).row recipientRow).balance amount ||
    addOverflows (ledger.row senderRow).nonce 1

def accountTransfer (calloc : Calloc) (ledger : AccountLedger) (sender recipient : List Char)
    (amount nonce : Int32) : Outcome AccountLedger :=
  let totalDebit := amount + txFee
  let overflow := addOverflows amount txFee
  match findOrCreateAccount ledger sender with
  | (ledger, senderRow) =>
    match findOrCreateAccount ledger recipient with
    | (ledger, recipientRow) =>
      match senderRow, recipientRow with
      | some senderRow, some recipientRow =>
        if nonce ≠ (ledger.row senderRow).nonce then ⟨false, ledger, overflow⟩
        else if (ledger.row senderRow).balance < totalDebit then ⟨false, ledger, overflow⟩
        else
          ⟨true, postTransfer calloc ledger senderRow recipientRow sender recipient amount nonce,
            overflow || postOverflows ledger senderRow recipientRow amount⟩
      | _, _ => ⟨false, ledger, overflow⟩

def createAccounts (ledger : AccountLedger) : List Student → Bool × AccountLedger
  | [] => (true, ledger)
  | student :: students =>
    match findOrCreateAccount ledger student.studentId.text with
    | (ledger, none) => (false, ledger)
    | (ledger, some _) => createAccounts ledger students

/-- `memset` clears the rows; nodes they still pointed to stay in use. -/
def clearAccounts (ledger : AccountLedger) : AccountLedger :=
  { ledger with accounts := [], fits := Nat.zero_le _ }

def ledgerInit (ledger : Ledger) (model : LedgerModel) (registry : StudentRegistry) :
    Bool × Ledger :=
  let cleared := clearAccounts ledger.accountLedger
  match model with
  | .utxo => (true, ⟨.utxo, .empty, cleared⟩)
  | .account =>
    let created := createAccounts cleared registry.students
    (created.1, ⟨.account, .empty, created.2⟩)

/-- The heap without the nodes of one account. -/
def freeAccountHistory (heap : Store Address TxHistoryNode) (account : Account) :
    Option (Store Address TxHistoryNode) :=
  releaseList heap account.history

/-- The loop of `ledger_cleanup` over the rows that are left. -/
def freeHistories (heap : Store Address TxHistoryNode) :
    List Account → Option (Store Address TxHistoryNode)
  | [] => some heap
  | account :: accounts =>
    (freeAccountHistory heap account).bind fun heap => freeHistories heap accounts

def ledgerCleanup (ledger : Ledger) : Option Ledger :=
  match ledger.model with
  | .utxo => some ledger
  | .account =>
    let accounts := ledger.accountLedger.accounts
    (freeHistories ledger.accountLedger.heap accounts).map fun heap =>
      { ledger with accountLedger := { ledger.accountLedger with
          heap
          -- each row is left with `NULL`
          accounts := accounts.map fun account => { account with history := none }
          fits := by simpa using ledger.accountLedger.fits } }

def ledgerSetModel (ledger : Ledger) (model : LedgerModel) (registry : StudentRegistry) :
    Option Ledger :=
  (ledgerCleanup ledger).map fun ledger => (ledgerInit ledger model registry).2

def Ledger.onAccounts (ledger : Ledger) (outcome : Outcome AccountLedger) : Outcome Ledger :=
  ⟨outcome.ok, { ledger with accountLedger := outcome.state }, outcome.overflow⟩

def Ledger.onUtxos (ledger : Ledger) (outcome : Outcome UTXOSet) : Outcome Ledger :=
  ⟨outcome.ok, { ledger with utxoSet := outcome.state }, outcome.overflow⟩

def ledgerApplyConfirmedBlock (calloc : Calloc) (ledger : Ledger) (block : Block)
    (tx : Transaction) : Outcome Ledger :=
  if block.tokenReward ≤ 0 then ⟨true, ledger, false⟩
  else
    match ledger.model with
    | .utxo =>
      let applied := utxoApplyReward ledger.utxoSet tx
      ledger.onUtxos ⟨applied.1, applied.2, false⟩
    | .account => ledger.onAccounts (accountApplyReward calloc ledger.accountLedger tx)

def ledgerTransfer (calloc : Calloc) (env : Env) (ledger : Ledger) (sender recipient : List Char)
    (amount : Int32) : Outcome Ledger :=
  if amount ≤ 0 then ⟨false, ledger, false⟩
  else if sender = recipient then ⟨false, ledger, false⟩
  else
    match ledger.model with
    | .utxo => ledger.onUtxos (utxoTransfer env ledger.utxoSet sender recipient amount)
    | .account =>
      match findOrCreateAccount ledger.accountLedger sender with
      | (accounts, none) => ledger.onAccounts ⟨false, accounts, false⟩
      | (accounts, some senderRow) =>
        ledger.onAccounts
          (accountTransfer calloc accounts sender recipient amount (accounts.row senderRow).nonce)

def ledgerTransferWithNonce (calloc : Calloc) (ledger : Ledger) (sender recipient : List Char)
    (amount nonce : Int32) : Outcome Ledger :=
  match ledger.model with
  | .utxo => ⟨false, ledger, false⟩
  | .account =>
    ledger.onAccounts (accountTransfer calloc ledger.accountLedger sender recipient amount nonce)

def ledgerCreditMiner (calloc : Calloc) (env : Env) (ledger : Ledger) (minerId : List Char)
    (amount : Int32) : Outcome Ledger :=
  if amount ≤ 0 then ⟨false, ledger, false⟩
  else
    match computeTransactionId env (minerTransaction minerId amount) with
    | none => ⟨false, ledger, false⟩
    | some txId =>
      match ledger.model with
      | .utxo =>
        let applied := utxoApplyReward ledger.utxoSet { minerTransaction minerId amount with txId }
        ledger.onUtxos ⟨applied.1, applied.2, false⟩
      | .account =>
        match findOrCreateAccount ledger.accountLedger minerId with
        | (accounts, none) => ledger.onAccounts ⟨false, accounts, false⟩
        | (accounts, some i) =>
          ledger.onAccounts
            ⟨true, creditAccount calloc accounts i "MINER".toList minerId amount 0,
              addOverflows (accounts.row i).balance amount⟩

/-- What `ledger_print_history` finds. Its loop comes to an end on a list, which has no more
nodes than are in use. -/
def historyReport (ledger : Ledger) (studentId : List Char) : Option HistoryReport :=
  match ledger.model with
  | .utxo => some .otherModel
  | .account =>
    let accounts := ledger.accountLedger
    match Table.lookup Account.key studentId accounts.accounts with
    | none => some .noAccount
    | some account =>
      (readLoop accounts.heap.keys.card accounts.heap account.history).map .entries

def call (calloc : Calloc) (env : Env) (ledger : Ledger) : LedgerOp → Outcome Ledger
  | .confirm block =>
    ledgerApplyConfirmedBlock calloc ledger block (createRewardTransaction env block).2
  | .creditMiner minerId amount => ledgerCreditMiner calloc env ledger minerId amount
  | .transfer sender recipient amount =>
    ledgerTransfer calloc env ledger sender recipient amount
  | .transferNonce sender recipient amount nonce =>
    ledgerTransferWithNonce calloc ledger sender recipient amount nonce

/-! ### Requests

What `main` and `mining.c` ask of the ledger between `ledger_init` and `ledger_cleanup`. -/

inductive Request where
  | call (op : LedgerOp)
  | setModel (model : LedgerModel)
  | printHistory (studentId : List Char)

/-- What a call returns, and whether an `int` overflowed in it. -/
inductive Reply where
  | returned (ok overflow : Bool)
  | switched
  | history (report : HistoryReport)

/-- `none` is an access to a node that is not in use, or a loop without end. -/
def serve (calloc : Calloc) (env : Env) (registry : StudentRegistry) (ledger : Ledger) :
    Request → Option (Ledger × Reply)
  | .call op =>
    let outcome := call calloc env ledger op
    some (outcome.state, .returned outcome.ok outcome.overflow)
  | .setModel model =>
    (ledgerSetModel ledger model registry).map fun ledger => (ledger, .switched)
  | .printHistory studentId =>
    (historyReport ledger studentId).map fun report => (ledger, .history report)

def run (calloc : Calloc) (env : Env) (registry : StudentRegistry) (ledger : Ledger) :
    List Request → Option (Ledger × List Reply)
  | [] => some (ledger, [])
  | request :: requests =>
    (serve calloc env registry ledger request).bind fun (ledger, reply) =>
      (run calloc env registry ledger requests).map fun (ledger, replies) =>
        (ledger, reply :: replies)

/-- A ledger nothing was done to, with no node in use. -/
def blankLedger : Ledger := ⟨.utxo, .empty, ⟨[], Nat.zero_le _, ∅, 0⟩⟩

/-- The ledger `main` starts with. -/
def initialLedger (model : LedgerModel) (registry : StudentRegistry) : Ledger :=
  (ledgerInit blankLedger model registry).2

/-- The request on the ledger with lists. -/
def Request.step (env : Env) (registry : StudentRegistry) (lists : Attendance.Ledger) :
    Request → Attendance.Ledger
  | .call op => ledgerStep env lists op
  | .setModel model => Attendance.ledgerSetModel model registry
  | .printHistory _ => lists

def Request.reply (env : Env) (lists : Attendance.Ledger) : Request → Reply
  | .call op => .returned (op.call env lists).ok (op.call env lists).overflow
  | .setModel _ => .switched
  | .printHistory studentId => .history (Attendance.historyReport lists studentId)

end Attendance.InMemory
