import Attendance.Foundation.Runs
import Attendance.Ledger.Memory

/-!
# The ledger in memory and the ledger on lists

Every call does the same to both, as far as `calloc` finds memory. What is said of a history
where it does not is a parameter: `Keeps` says which relations between the nodes on the heap,
the refused ones and the nodes on the list each call keeps.
-/
namespace Attendance.InMemory

open CText MachineInt Heap

/-- What there is to say about the nodes of a history on the heap, those that were refused, and
those of the history on lists. -/
abbrev Loss := List TxHistoryNode → List TxHistoryNode → List TxHistoryNode → Prop

/-- The relation stays true where a node is made, and where `calloc` finds no memory for it. -/
structure Keeps (calloc : Calloc) (R : Loss) : Prop where
  nil : R [] [] []
  made : ∀ node {kept refused all}, R kept refused all → R (node :: kept) refused (node :: all)
  refused : ∀ {call live}, calloc.pick call live = none →
    ∀ node {kept refused all}, R kept refused all → R kept (node :: refused) (node :: all)

/-- Whatever `calloc` does, the nodes it refused are the ones a history lacks. -/
theorem keeps_interleaved (calloc : Calloc) : Keeps calloc Interleaved :=
  ⟨.nil, fun node _ _ _ => .kept node, fun _ node _ _ _ => .lost node⟩

/-- No node was refused. -/
def Complete : Loss := fun kept refused all => refused = [] ∧ kept = all

/-- Where `calloc` always finds memory, no history lacks a node. -/
theorem keeps_complete {calloc : Calloc} (finds : ∀ call live, calloc.pick call live ≠ none) :
    Keeps calloc Complete :=
  ⟨⟨rfl, rfl⟩, fun node _ _ _ kept => ⟨kept.1, congrArg (node :: ·) kept.2⟩,
    fun refused => absurd refused (finds _ _)⟩

variable {calloc : Calloc} {R : Loss}

structure RowRefines (R : Loss)
    (heap : Store Address TxHistoryNode) (row : Account) (account : Attendance.Account) :
    Prop where
  studentId : row.studentId = account.studentId
  balance : row.balance = account.balance
  nonce : row.nonce = account.nonce
  history : ∃ nodes, Linked heap row.history nodes ∧ R (nodes.map Prod.snd) row.refused account.history

/-- The rows are those of the table on lists, and the heap holds their histories and nothing
else. -/
structure AccountsRefine (R : Loss)
    (ledger : AccountLedger) (lists : Attendance.AccountLedger) : Prop where
  rows : List.Forall₂ (RowRefines R ledger.heap) ledger.accounts lists.accounts
  owned : ∃ nodes, Owns ledger.heap (ledger.accounts.map Account.history) nodes

/-- The same model and outputs, and no account in the UTXO model, where `ledger_cleanup` would
not look for histories. -/
structure LedgerRefines (R : Loss)
    (ledger : Ledger) (lists : Attendance.Ledger) : Prop where
  model : ledger.model = lists.model
  utxoSet : ledger.utxoSet = lists.utxoSet
  accounts : AccountsRefine R ledger.accountLedger lists.accountLedger
  empty : ledger.model = .utxo → ledger.accountLedger.accounts = []

/-! ### Rows -/

section Accounts

variable {ledger : AccountLedger} {lists : Attendance.AccountLedger}

theorem RowRefines.insert {heap : Store Address TxHistoryNode} {row : Account}
    {account : Attendance.Account} (refines : RowRefines R heap row account) {address : Address}
    (fresh : address ∉ heap.keys) (node : Node Address TxHistoryNode) :
    RowRefines R (heap.insert address node) row account := by
  obtain ⟨nodes, linked, related⟩ := refines.history
  exact ⟨refines.studentId, refines.balance, refines.nonce, nodes, linked.insert fresh node, related⟩

/-- A row that was just made has no history. -/
theorem rowRefines_new (keeps : Keeps calloc R) (heap : Store Address TxHistoryNode)
    (studentId : CStr studentIdLen) : RowRefines R heap { studentId } { studentId } :=
  ⟨rfl, rfl, rfl, [], linked_nil.mpr rfl, keeps.nil⟩

theorem AccountsRefine.row (keeps : Keeps calloc R) (refines : AccountsRefine R ledger lists)
    (i : Nat) : RowRefines R ledger.heap (ledger.row i) (lists.row i) :=
  Table.forall₂_getD refines.rows (rowRefines_new keeps ledger.heap .empty) i

theorem AccountsRefine.length (refines : AccountsRefine R ledger lists) :
    ledger.accounts.length = lists.accounts.length := refines.rows.length_eq

/-- A row is found or added at the same place. -/
theorem AccountsRefine.findOrCreateAccount (keeps : Keeps calloc R)
    (refines : AccountsRefine R ledger lists) (studentId : List Char) :
    AccountsRefine R (findOrCreateAccount ledger studentId).1
        (Attendance.findOrCreateAccount lists studentId).1 ∧
      (findOrCreateAccount ledger studentId).2 =
        (Attendance.findOrCreateAccount lists studentId).2 := by
  have same := Table.forall₂_position Account.key Attendance.Account.key
    (fun _ _ row => congrArg CStr.text row.studentId) refines.rows studentId
  unfold InMemory.findOrCreateAccount Attendance.findOrCreateAccount
  rw [same]
  cases Table.position Attendance.Account.key studentId lists.accounts with
  | some i => exact ⟨refines, rfl⟩
  | none =>
    have length := refines.length
    by_cases room : ledger.accounts.length < maxStudents
    · have room' : lists.accounts.length < maxStudents := length ▸ room
      obtain ⟨nodes, owns⟩ := refines.owned
      have added := rowRefines_new keeps ledger.heap (.strncpy studentId)
      simp only [dif_pos room, dif_pos room']
      refine ⟨⟨List.rel_append refines.rows (.cons added .nil), nodes ++ [[]], ?_⟩,
        congrArg some length⟩
      simpa using owns.concat_none
    · have full : ¬lists.accounts.length < maxStudents := length ▸ room
      simp only [dif_neg room, dif_neg full]
      exact ⟨refines, trivial⟩

theorem AccountsRefine.found (keeps : Keeps calloc R) (refines : AccountsRefine R ledger lists)
    {studentId : List Char} {accounts : AccountLedger} {row : Option Nat}
    (result : InMemory.findOrCreateAccount ledger studentId = (accounts, row)) :
    ∃ accounts', Attendance.findOrCreateAccount lists studentId = (accounts', row) ∧
      AccountsRefine R accounts accounts' := by
  have found := refines.findOrCreateAccount keeps studentId
  rw [result] at found
  exact ⟨_, Prod.ext rfl found.2.symm, found.1⟩

/-- A row is rewritten alike, without touching its history. -/
theorem AccountsRefine.modifyRow (refines : AccountsRefine R ledger lists) (i : Nat)
    {f : Account → Account} {g : Attendance.Account → Attendance.Account}
    (alike : ∀ row account, RowRefines R ledger.heap row account →
      RowRefines R ledger.heap (f row) (g account))
    (kept : ∀ row, (f row).history = row.history) :
    AccountsRefine R (ledger.modifyRow i f) (lists.modifyRow i g) := by
  constructor
  case rows =>
    exact Table.forall₂_modify refines.rows (fun _ _ _ => alike _ _) (fun _ _ => id)
  case owned =>
    have column := Table.map_modify Account.history (g := id) kept ledger.accounts i
    rw [AccountLedger.modifyRow, column, List.modify_id]
    exact refines.owned

theorem AccountsRefine.modifyBalance (refines : AccountsRefine R ledger lists) (i : Nat)
    (g : Int32 → Int32) :
    AccountsRefine R
      (ledger.modifyRow i fun account => { account with balance := g account.balance })
      (lists.modifyRow i fun account => { account with balance := g account.balance }) :=
  refines.modifyRow i
    (fun _ _ row => ⟨row.studentId, congrArg g row.balance, row.nonce, row.history⟩)
    (fun _ => rfl)

theorem AccountsRefine.modifyNonce (refines : AccountsRefine R ledger lists) (i : Nat)
    (g : Int32 → Int32) :
    AccountsRefine R
      (ledger.modifyRow i fun account => { account with nonce := g account.nonce })
      (lists.modifyRow i fun account => { account with nonce := g account.nonce }) :=
  refines.modifyRow i
    (fun _ _ row => ⟨row.studentId, row.balance, congrArg g row.nonce, row.history⟩)
    (fun _ => rfl)

/-- The node is in front of the history on the heap, if there was memory for it. -/
theorem AccountsRefine.accountAppendHistory (keeps : Keeps calloc R)
    (refines : AccountsRefine R ledger lists) {i : Nat} (inside : i < ledger.accounts.length)
    (sender recipient : List Char) (amount fee nonce : Int32) :
    AccountsRefine R
      (accountAppendHistory calloc ledger i sender recipient amount fee nonce)
      (lists.modifyRow i
        (Attendance.accountAppendHistory · sender recipient amount fee nonce)) := by
  have here : ledger.accounts[i]? = some (ledger.row i) := by
    simp [AccountLedger.row, inside]
  unfold InMemory.accountAppendHistory
  cases picked : calloc.pick ledger.calls ledger.heap.keys with
  | none =>
    -- `calloc` refuses: the history stays, and the node is noted as refused
    have without := refines.modifyRow i
      (f := fun account => { account with
        refused := ⟨.strncpy sender, .strncpy recipient, amount, fee, nonce⟩ :: account.refused })
      (g := (Attendance.accountAppendHistory · sender recipient amount fee nonce))
      (fun _ _ alike => ⟨alike.studentId, alike.balance, alike.nonce,
        alike.history.imp fun _ history => ⟨history.1, keeps.refused picked _ history.2⟩⟩)
      (fun _ => rfl)
    exact ⟨without.rows, without.owned⟩
  | some address =>
    -- the new node is in no history yet, and is linked in front of this one
    have fresh := calloc.fresh picked
    constructor
    case rows =>
      refine Table.forall₂_modify refines.rows (fun row account there alike => ?_)
        (fun _ _ alike => alike.insert fresh _)
      rw [here] at there
      cases there
      obtain ⟨nodes, linked, related⟩ := alike.history
      exact ⟨alike.studentId, alike.balance, alike.nonce, _, linked.push fresh _,
        keeps.made _ related⟩
    case owned =>
      obtain ⟨nodes, owns⟩ := refines.owned
      have front : (ledger.accounts.map Account.history)[i]? = some (ledger.row i).history := by
        rw [List.getElem?_map, here, Option.map_some]
      simp only [AccountLedger.modifyRow]
      rw [Table.map_modify Account.history (g := fun _ => some address) (fun _ => rfl)]
      exact ⟨_, owns.push front fresh _⟩

/-- The place of a row is inside the table it was found in. -/
theorem findOrCreateAccount_inside {ledger' : AccountLedger} {studentId : List Char} {i : Nat}
    (returned : findOrCreateAccount ledger studentId = (ledger', some i)) :
    i < ledger'.accounts.length := by
  unfold InMemory.findOrCreateAccount at returned
  split at returned
  next found =>
    cases returned
    exact Table.position_lt Account.key found
  next =>
    split at returned
    · cases returned
      simp
    · cases returned

theorem length_findOrCreateAccount_le {ledger' : AccountLedger} {studentId : List Char}
    {row : Option Nat} (returned : findOrCreateAccount ledger studentId = (ledger', row)) :
    ledger.accounts.length ≤ ledger'.accounts.length := by
  unfold InMemory.findOrCreateAccount at returned
  split at returned
  next =>
    cases returned
    exact le_rfl
  next =>
    split at returned
    · cases returned
      simp
    · cases returned
      exact le_rfl

@[simp] theorem length_modifyRow (ledger : AccountLedger) (i : Nat) (f : Account → Account) :
    (ledger.modifyRow i f).accounts.length = ledger.accounts.length := by
  simp [AccountLedger.modifyRow]

@[simp] theorem length_accountAppendHistory (ledger : AccountLedger) (i : Nat)
    (sender recipient : List Char) (amount fee nonce : Int32) :
    (accountAppendHistory calloc ledger i sender recipient amount fee nonce).accounts.length =
      ledger.accounts.length := by
  unfold accountAppendHistory
  cases calloc.pick ledger.calls ledger.heap.keys with
  | none => rw [length_modifyRow]
  | some address => rw [length_modifyRow]

theorem AccountsRefine.creditAccount (keeps : Keeps calloc R)
    (refines : AccountsRefine R ledger lists) {i : Nat} (inside : i < ledger.accounts.length)
    (source owner : List Char) (amount fee : Int32) :
    AccountsRefine R (creditAccount calloc ledger i source owner amount fee)
      (lists.modifyRow i (Attendance.creditAccount · source owner amount fee)) := by
  have alike := refines.row keeps i
  have credited := refines.modifyBalance i (· + amount)
  have appended := credited.accountAppendHistory keeps (by rwa [length_modifyRow]) source owner
    amount fee (ledger.row i).nonce
  -- the nonce on the list is read from the row, in memory from the account before
  have joined : lists.modifyRow i (Attendance.creditAccount · source owner amount fee) =
      (lists.modifyRow i
        fun account => { account with balance := account.balance + amount }).modifyRow i
        (Attendance.accountAppendHistory · source owner amount fee (ledger.row i).nonce) := by
    ext1
    simp only [accounts_modifyRow, List.modify_modify_eq]
    apply Table.modify_congr
    intro row there
    have found : lists.row i = row := by
      rw [Attendance.AccountLedger.row, List.getD_eq_getElem?_getD, there, Option.getD_some]
    rw [alike.nonce, found]
    rfl
  rw [joined]
  exact appended

/-! ### Calls on the table -/

/-- The same value returned and the same overflow, and tables that are related. -/
structure CallRefines (R : Loss)
    (outcome : Outcome AccountLedger) (lists : Outcome Attendance.AccountLedger) : Prop where
  ok : outcome.ok = lists.ok
  overflow : outcome.overflow = lists.overflow
  state : AccountsRefine R outcome.state lists.state

theorem AccountsRefine.applyRewardOutputs (keeps : Keeps calloc R)
    (refines : AccountsRefine R ledger lists) (fee : Int32) (outputs : List TxOutput) :
    CallRefines R (applyRewardOutputs calloc ledger fee outputs)
      (Attendance.applyRewardOutputs lists fee outputs) := by
  induction outputs generalizing ledger lists with
  | nil => exact ⟨rfl, rfl, refines⟩
  | cons output outputs ih =>
    rw [InMemory.applyRewardOutputs, Attendance.applyRewardOutputs]
    cases result : InMemory.findOrCreateAccount ledger output.owner.text with
    | mk accounts row =>
      obtain ⟨accounts', result', alike⟩ := refines.found keeps result
      rw [result']
      cases row with
      | none => exact ⟨rfl, rfl, alike⟩
      | some i =>
        have credited := alike.creditAccount keeps (findOrCreateAccount_inside result)
          "SYSTEM".toList output.owner.text output.amount fee
        have rest := ih credited
        have balance := (alike.row keeps i).balance
        exact ⟨rest.ok, by simp only [balance, rest.overflow], rest.state⟩

theorem AccountsRefine.postTransfer (keeps : Keeps calloc R)
    (refines : AccountsRefine R ledger lists) {i j : Nat} (inside : i < ledger.accounts.length)
    (inside' : j < ledger.accounts.length) (sender recipient : List Char) (amount nonce : Int32) :
    AccountsRefine R (postTransfer calloc ledger i j sender recipient amount nonce)
      (Attendance.postTransfer lists i j sender recipient amount nonce) := by
  have debited := refines.modifyBalance i (· - (amount + txFee))
  have credited := debited.modifyBalance j (· + amount)
  have noted := credited.accountAppendHistory keeps (i := i) (by simpa using inside)
    sender recipient amount txFee nonce
  have notedTwice := noted.accountAppendHistory keeps (i := j) (by simpa using inside')
    sender recipient amount txFee nonce
  exact notedTwice.modifyNonce i (· + 1)

theorem AccountsRefine.postOverflows (keeps : Keeps calloc R)
    (refines : AccountsRefine R ledger lists) (i j : Nat) (amount : Int32) :
    postOverflows ledger i j amount = Attendance.postOverflows lists i j amount := by
  have sender := refines.row keeps i
  have recipient := (refines.modifyBalance i (· - (amount + txFee))).row keeps j
  rw [InMemory.postOverflows, Attendance.postOverflows, sender.balance, sender.nonce]
  exact congrArg (fun balance => _ || addOverflows balance amount || _) recipient.balance

theorem AccountsRefine.accountTransfer (keeps : Keeps calloc R)
    (refines : AccountsRefine R ledger lists) (sender recipient : List Char)
    (amount nonce : Int32) :
    CallRefines R (accountTransfer calloc ledger sender recipient amount nonce)
      (Attendance.accountTransfer lists sender recipient amount nonce) := by
  rw [InMemory.accountTransfer, Attendance.accountTransfer]
  cases first : InMemory.findOrCreateAccount ledger sender with
  | mk accounts senderRow =>
    obtain ⟨accounts', first', alike⟩ := refines.found keeps first
    cases second : InMemory.findOrCreateAccount accounts recipient with
    | mk both recipientRow =>
      obtain ⟨both', second', alike'⟩ := alike.found keeps second
      rw [first']
      simp only [second, second']
      match senderRow, recipientRow with
      | none, _ | some _, none => exact ⟨rfl, rfl, alike'⟩
      | some i, some j =>
        -- the second lookup removes no row, so the row of the sender is still there
        have inside := (findOrCreateAccount_inside first).trans_le
          (length_findOrCreateAccount_le second)
        have row := alike'.row keeps i
        have posted := alike'.postTransfer keeps inside (findOrCreateAccount_inside second)
          sender recipient amount nonce
        simp only [row.nonce, row.balance, alike'.postOverflows keeps i j amount]
        split
        · exact ⟨rfl, rfl, alike'⟩
        split
        · exact ⟨rfl, rfl, alike'⟩
        · exact ⟨rfl, rfl, posted⟩

theorem AccountsRefine.createAccounts (keeps : Keeps calloc R)
    (refines : AccountsRefine R ledger lists) (students : List Student) :
    (createAccounts ledger students).1 = (Attendance.createAccounts lists students).1 ∧
    AccountsRefine R (createAccounts ledger students).2
      (Attendance.createAccounts lists students).2 := by
  induction students generalizing ledger lists with
  | nil => exact ⟨rfl, refines⟩
  | cons student students ih =>
    rw [InMemory.createAccounts, Attendance.createAccounts]
    cases result : InMemory.findOrCreateAccount ledger student.studentId.text with
    | mk accounts row =>
      obtain ⟨accounts', result', alike⟩ := refines.found keeps result
      rw [result']
      cases row with
      | none => exact ⟨rfl, alike⟩
      | some i => exact ih alike

end Accounts

/-! ### Calls on the ledger -/

section Ledger

variable {ledger : Ledger} {lists : Attendance.Ledger}

/-- The same value returned, and ledgers that are related. -/
structure OutcomeRefines (R : Loss)
    (outcome : Outcome Ledger) (lists : Outcome Attendance.Ledger) : Prop where
  ok : outcome.ok = lists.ok
  overflow : outcome.overflow = lists.overflow
  state : LedgerRefines R outcome.state lists.state

/-- What is done to the account table of a ledger that is in the account model. -/
theorem LedgerRefines.onAccounts (refines : LedgerRefines R ledger lists)
    (model : lists.model = .account) {outcome : Outcome AccountLedger}
    {outcome' : Outcome Attendance.AccountLedger} (call : CallRefines R outcome outcome') :
    OutcomeRefines R (ledger.onAccounts outcome) (lists.onAccounts outcome') := by
  refine ⟨call.ok, call.overflow, refines.model, refines.utxoSet, call.state, fun other => ?_⟩
  rw [← refines.model] at model
  exact absurd (model.symm.trans other) (by simp)

theorem LedgerRefines.onUtxos (refines : LedgerRefines R ledger lists)
    (outcome : Outcome UTXOSet) :
    OutcomeRefines R (ledger.onUtxos outcome) (lists.onUtxos outcome) :=
  ⟨rfl, rfl, refines.model, rfl, refines.accounts, refines.empty⟩

/-- The calls that create and move tokens do the same to both. -/
theorem LedgerRefines.call (keeps : Keeps calloc R) (refines : LedgerRefines R ledger lists)
    (env : Env) (op : LedgerOp) :
    OutcomeRefines R (InMemory.call calloc env ledger op) (op.call env lists) := by
  have idle (ok : Bool) : OutcomeRefines R ⟨ok, ledger, false⟩ ⟨ok, lists, false⟩ :=
    ⟨rfl, rfl, refines⟩
  have model := refines.model
  cases op with
  | confirm block =>
    simp only [InMemory.call, LedgerOp.call, InMemory.ledgerApplyConfirmedBlock,
      Attendance.ledgerApplyConfirmedBlock, model, refines.utxoSet]
    split
    · exact idle true
    cases active : lists.model with
    | utxo => exact refines.onUtxos _
    | account =>
      exact refines.onAccounts active (refines.accounts.applyRewardOutputs keeps _ _)
  | creditMiner minerId amount =>
    simp only [InMemory.call, LedgerOp.call, InMemory.ledgerCreditMiner,
      Attendance.ledgerCreditMiner, model, refines.utxoSet]
    split
    · exact idle false
    cases computeTransactionId env (minerTransaction minerId amount) with
    | none => exact idle false
    | some txId =>
      cases active : lists.model with
      | utxo => exact refines.onUtxos _
      | account =>
        simp only
        -- the row of the miner may be new; it is the same row on lists
        cases result : InMemory.findOrCreateAccount ledger.accountLedger minerId with
        | mk accounts row =>
          obtain ⟨accounts', result', alike⟩ := refines.accounts.found keeps result
          rw [result']
          cases row with
          | none => exact refines.onAccounts active ⟨rfl, rfl, alike⟩
          | some i =>
            have credited := alike.creditAccount keeps (findOrCreateAccount_inside result)
              "MINER".toList minerId amount 0
            simp only [(alike.row keeps i).balance]
            exact refines.onAccounts active ⟨rfl, rfl, credited⟩
  | transfer sender recipient amount =>
    simp only [InMemory.call, LedgerOp.call, InMemory.ledgerTransfer,
      Attendance.ledgerTransfer, model, refines.utxoSet]
    split
    · exact idle false
    split
    · exact idle false
    cases active : lists.model with
    | utxo => exact refines.onUtxos _
    | account =>
      simp only
      cases result : InMemory.findOrCreateAccount ledger.accountLedger sender with
      | mk accounts row =>
        obtain ⟨accounts', result', alike⟩ := refines.accounts.found keeps result
        rw [result']
        cases row with
        | none => exact refines.onAccounts active ⟨rfl, rfl, alike⟩
        | some i =>
          -- the nonce is read in the row just looked up, which refines the one on lists
          simp only [(alike.row keeps i).nonce]
          exact refines.onAccounts active (alike.accountTransfer keeps sender recipient amount _)
  | transferNonce sender recipient amount nonce =>
    simp only [InMemory.call, LedgerOp.call, InMemory.ledgerTransferWithNonce,
      Attendance.ledgerTransferWithNonce, model]
    cases active : lists.model with
    | utxo => exact idle false
    | account =>
      exact refines.onAccounts active
        (refines.accounts.accountTransfer keeps sender recipient amount nonce)

/-- `ledger_init` on a heap without nodes. -/
theorem refines_ledgerInit (keeps : Keeps calloc R) (registry : StudentRegistry)
    (model : LedgerModel) (unused : ledger.accountLedger.heap = ∅) :
    (ledgerInit ledger model registry).1 = (Attendance.ledgerInit model registry).1 ∧
    LedgerRefines R (ledgerInit ledger model registry).2
      (Attendance.ledgerInit model registry).2 := by
  have cleared : AccountsRefine R (clearAccounts ledger.accountLedger) .empty := by
    refine ⟨.nil, [], ?_⟩
    simp only [clearAccounts, unused]
    exact owns_empty
  cases model with
  | utxo => exact ⟨rfl, rfl, rfl, cleared, fun _ => rfl⟩
  | account =>
    obtain ⟨ok, created⟩ := cleared.createAccounts keeps registry.students
    exact ⟨ok, rfl, rfl, created, fun other => nomatch other⟩

private theorem freeHistories_eq {heap : Store Address TxHistoryNode} {accounts : List Account}
    {nodes : List (List (Address × TxHistoryNode))}
    (owns : Owns heap (accounts.map Account.history) nodes) :
    freeHistories heap accounts = some ∅ := by
  induction accounts generalizing heap nodes with
  | nil => exact congrArg some owns.eq_empty
  | cons account accounts ih =>
    obtain ⟨heap', rest, released, owns'⟩ := owns.releaseList_eq
    rw [freeHistories, freeAccountHistory, released, Option.bind_some, ih owns']

private theorem freeHistories_none (heap : Store Address TxHistoryNode) {accounts : List Account}
    (none : ∀ account ∈ accounts, account.history = none) :
    freeHistories heap accounts = some heap := by
  induction accounts with
  | nil => rfl
  | cons account accounts ih =>
    rw [List.forall_mem_cons] at none
    rw [freeHistories, freeAccountHistory, none.1, releaseList_none, Option.bind_some, ih none.2]

/-- `ledger_cleanup` releases every node, each once; a second call finds nothing to release. -/
theorem LedgerRefines.cleanup (refines : LedgerRefines R ledger lists) :
    ∃ cleaned, ledgerCleanup ledger = some cleaned ∧ cleaned.accountLedger.heap = ∅ ∧
      ledgerCleanup cleaned = some cleaned := by
  obtain ⟨nodes, owns⟩ := refines.accounts.owned
  cases model : ledger.model with
  | utxo =>
    -- there is nothing to release: without accounts there are no nodes
    have idle : ledgerCleanup ledger = some ledger := by rw [ledgerCleanup, model]
    rw [refines.empty model] at owns
    exact ⟨ledger, idle, owns.eq_empty, idle⟩
  | account =>
    have none : ∀ account ∈ ledger.accountLedger.accounts.map fun account =>
        { account with history := none }, account.history = none := by simp
    have again := freeHistories_none ∅ none
    simp only [ledgerCleanup, model, freeHistories_eq owns, Option.map_some]
    refine ⟨_, rfl, rfl, ?_⟩
    simp only [again, Option.map_some, List.map_map]
    rfl

inductive ReportRefines (R : Loss) :
    HistoryReport → HistoryReport → Prop where
  | otherModel : ReportRefines R .otherModel .otherModel
  | noAccount : ReportRefines R .noAccount .noAccount
  | entries {nodes refused nodes' : List TxHistoryNode} (related : R nodes refused nodes') :
      ReportRefines R (.entries nodes) (.entries nodes')

theorem LedgerRefines.historyReport (refines : LedgerRefines R ledger lists)
    (studentId : List Char) :
    ∃ report, InMemory.historyReport ledger studentId = some report ∧
      ReportRefines R report (Attendance.historyReport lists studentId) := by
  rw [InMemory.historyReport, Attendance.historyReport, refines.model]
  cases lists.model with
  | utxo => exact ⟨_, rfl, .otherModel⟩
  | account =>
    simp only [Attendance.AccountLedger.find]
    rcases Table.forall₂_lookup Account.key Attendance.Account.key
        (fun _ _ row => congrArg CStr.text row.studentId) refines.accounts.rows studentId with
      ⟨absent, absent'⟩ | ⟨row, account, found, found', alike⟩
    · rw [absent, absent']
      exact ⟨_, rfl, .noAccount⟩
    · obtain ⟨nodes, linked, related⟩ := alike.history
      simp only [found, found', linked.readLoop_eq linked.length_le, Option.map_some]
      exact ⟨_, rfl, .entries related⟩

/-! ### Runs -/

inductive ReplyRefines (R : Loss) :
    Reply → Reply → Prop where
  | returned (ok overflow : Bool) :
      ReplyRefines R (.returned ok overflow) (.returned ok overflow)
  | switched : ReplyRefines R .switched .switched
  | history {report report' : HistoryReport} (related : ReportRefines R report report') :
      ReplyRefines R (.history report) (.history report')

/-- No request fails, and it does the same to both. -/
theorem LedgerRefines.serve (keeps : Keeps calloc R) (refines : LedgerRefines R ledger lists)
    (env : Env) (registry : StudentRegistry) (request : Request) :
    ∃ next reply, serve calloc env registry ledger request = some (next, reply) ∧
      LedgerRefines R next (Request.step env registry lists request) ∧
      ReplyRefines R reply (Request.reply env lists request) := by
  cases request with
  | call op =>
    have called := refines.call keeps env op
    refine ⟨_, _, rfl, called.state, ?_⟩
    rw [Request.reply, ← called.ok, ← called.overflow]
    exact .returned _ _
  | setModel model =>
    obtain ⟨cleaned, freed, unused, _⟩ := refines.cleanup
    have started := (refines_ledgerInit keeps registry model unused).2
    simp only [InMemory.serve, ledgerSetModel, freed, Option.map_some]
    exact ⟨_, _, rfl, started, .switched⟩
  | printHistory studentId =>
    obtain ⟨report, printed, related⟩ := refines.historyReport studentId
    simp only [InMemory.serve, printed, Option.map_some]
    exact ⟨_, _, rfl, refines, .history related⟩

/-- No run fails, and it does the same to both. -/
theorem LedgerRefines.run (keeps : Keeps calloc R) (refines : LedgerRefines R ledger lists)
    (env : Env) (registry : StudentRegistry) (requests : List Request) :
    ∃ last replies, run calloc env registry ledger requests = some (last, replies) ∧
      LedgerRefines R last (Runs.final (Request.step env registry) lists requests) ∧
      List.Forall₂ (ReplyRefines R) replies
        (Runs.trace (Request.step env registry) (fun lists request =>
          [Request.reply env lists request]) lists requests) := by
  induction requests generalizing ledger lists with
  | nil => exact ⟨ledger, [], rfl, refines, .nil⟩
  | cons request requests ih =>
    obtain ⟨next, reply, served, alike, same⟩ := refines.serve keeps env registry request
    obtain ⟨last, replies, ran, alike', rest⟩ := ih alike
    refine ⟨last, reply :: replies, ?_, alike', .cons same rest⟩
    simp only [InMemory.run, served, Option.bind_some, ran, Option.map_some]

theorem run_initialLedger (keeps : Keeps calloc R) (env : Env) (registry : StudentRegistry)
    (model : LedgerModel) (requests : List Request) :
    ∃ last replies,
      InMemory.run calloc env registry (initialLedger model registry) requests =
        some (last, replies) ∧
      LedgerRefines R last (Runs.final (Request.step env registry)
        (Attendance.ledgerInit model registry).2 requests) ∧
      List.Forall₂ (ReplyRefines R) replies
        (Runs.trace (Request.step env registry) (fun lists request =>
          [Request.reply env lists request]) (Attendance.ledgerInit model registry).2 requests) := by
  have unused : blankLedger.accountLedger.heap = ∅ := rfl
  exact (refines_ledgerInit keeps registry model unused).2.run keeps env registry requests

theorem eq_of_replyRefines {replies replies' : List Reply}
    (alike : List.Forall₂ (ReplyRefines Complete) replies replies') : replies = replies' := by
  rw [← List.forall₂_eq_eq_eq]
  apply alike.imp
  rintro _ _ (_ | _ | ⟨_ | _ | ⟨_, rfl⟩⟩) <;> rfl

end Ledger

end Attendance.InMemory
