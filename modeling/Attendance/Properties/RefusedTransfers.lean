import Attendance.Records
import Attendance.Sample

/-!
# What a refused transfer leaves behind

`account_transfer` looks up both ids, and adds rows for those it does not know, before it
checks anything. A transfer that is then refused leaves these rows in the table. Transfers of
unspent outputs are refused before anything is marked.
-/
namespace Attendance

open CText MachineInt Calls

/-- If the call returns false, the ledger is what it was. -/
def KeepsWhenRefused (env : Env) (ledger : Ledger) (op : LedgerOp) : Prop :=
  (op.call env ledger).ok = false → (op.call env ledger).state = ledger

instance (env : Env) (ledger : Ledger) (op : LedgerOp) :
    Decidable (KeepsWhenRefused env ledger op) :=
  inferInstanceAs (Decidable (_ → _))

/-- Both ids have rows or none can be added, or the transfer is accepted. `ledger_transfer`
makes its lookups once it has checked the amount and the two ids. Among unspent outputs a sum
that wraps around is paid from nothing, and the payment may find room where the change does
not. -/
def LedgerOp.LeavesNothing (ledger : Ledger) : LedgerOp → Prop
  | .transfer sender recipient amount =>
    0 < amount → sender ≠ recipient →
    match ledger.model with
    | .account =>
      ledger.accountLedger.Settled sender ∧ ledger.accountLedger.Settled recipient ∨
      TransferAccepted (lookups ledger.accountLedger [sender]) sender recipient amount
        (ledger.accountLedger.nonceOf sender)
    | .utxo =>
      ¬(addOverflows amount txFee = true ∧ unspentAmounts ledger.utxoSet sender = [] ∧
        ledger.utxoSet.entries.length + 1 = maxUtxos)
  | .transferNonce sender recipient amount nonce =>
    ledger.model = .account →
      ledger.accountLedger.Settled sender ∧ ledger.accountLedger.Settled recipient ∨
      TransferAccepted ledger.accountLedger sender recipient amount nonce
  | .confirm _ | .creditMiner _ _ => True

/-! ### Accounts -/

private theorem onAccounts_eq_self_iff (ledger : Ledger) (outcome : Outcome AccountLedger) :
    (ledger.onAccounts outcome).state = ledger ↔ outcome.state = ledger.accountLedger := by
  constructor
  · intro same
    exact congrArg Ledger.accountLedger same
  · intro same
    simp [Ledger.onAccounts, same]

/-- A refused `account_transfer`, after some lookups, keeps the rows of all of them. -/
private theorem accountTransfer_keeps_iff {ledger : AccountLedger} {ids : List (List Char)}
    (sender recipient : List Char) (amount nonce : Int32) :
    let result := accountTransfer (lookups ledger ids) sender recipient amount nonce
    (result.ok = false → result.state = ledger) ↔
      (∀ id ∈ ids ++ [sender, recipient], ledger.Settled id) ∨
      TransferAccepted (lookups ledger ids) sender recipient amount nonce := by
  have looked : lookups (lookups ledger ids) [sender, recipient] =
      lookups ledger (ids ++ [sender, recipient]) := by
    simp [lookups]
  rcases accountTransfer_cases (lookups ledger ids) sender recipient amount nonce with
    ⟨refused, result⟩ | ⟨accepted, _, _, _, _, _, _, result⟩
  · rw [result, looked]
    simp only [true_implies, lookups_eq_self_iff, refused, or_false]
  · rw [result]
    simp [accepted]

private theorem transfer_keeps_iff (env : Env) {ledger : Ledger} {sender recipient : List Char}
    {amount : Int32} (model : ledger.model = .account) (positive : 0 < amount)
    (different : sender ≠ recipient) :
    KeepsWhenRefused env ledger (.transfer sender recipient amount) ↔
      ledger.accountLedger.Settled sender ∧ ledger.accountLedger.Settled recipient ∨
      TransferAccepted (lookups ledger.accountLedger [sender]) sender recipient amount
        (ledger.accountLedger.nonceOf sender) := by
  rw [KeepsWhenRefused, LedgerOp.call, ledgerTransfer, if_neg (Int32.not_le.mpr positive),
    if_neg different, model]
  simp only
  cases result : findOrCreateAccount ledger.accountLedger sender with
  | mk accounts row =>
    have looked : lookups ledger.accountLedger [sender] = accounts := by
      simp [lookups, result]
    cases row with
    -- without room for the sender there is none for the recipient
    | none =>
      obtain rfl := findOrCreateAccount_none result
      have settled := (findOrCreateAccount_eq_self_iff ledger.accountLedger sender).mp
        (by rw [result])
      have full : ledger.accountLedger.accounts.length = maxStudents := by
        rcases findOrCreateAccount_cases ledger.accountLedger sender with
          ⟨_, _, other⟩ | ⟨_, _, _, other⟩ | ⟨_, full, _⟩
        · rw [result] at other
          cases other
        · rw [result] at other
          cases other
        · exact full
      exact iff_of_true (fun _ => rfl) (Or.inl ⟨settled, Or.inr full⟩)
    | some i =>
      have nonce := read_row_findOrCreateAccount Account.nonce (fun _ => rfl) result
      have keeps := @accountTransfer_keeps_iff ledger.accountLedger [sender] sender recipient
        amount (ledger.accountLedger.nonceOf sender)
      rw [looked] at keeps ⊢
      rw [AccountLedger.nonceOf, ← nonce] at keeps ⊢
      rw [onAccounts_eq_self_iff]
      refine keeps.trans (or_congr_left ?_)
      simp

/-! ### Runs -/

/-- Attendance rewards, miner credits and transfers keep ids whole. -/
private theorem whole_ledgerStep (env : Env) {ledger : Ledger} {op : LedgerOp}
    (attendance : op.FromAttendance) (whole : ledger.utxoSet.Whole) :
    (ledgerStep env ledger op).utxoSet.Whole := by
  by_cases credit : op.IsCredit
  · have step := opStep_of_isCredit env ledger credit
    rw [ledgerStep]
    generalize op.call env ledger = outcome at step
    cases step with
    | idle | lookedUp | credited | posted => exact whole
    | @added output entry longer _ outputs made appended =>
      obtain ⟨_, txId⟩ := paysOne_transaction env credit attendance outputs
      rw [UTXOSet.Whole, appended, List.forall_mem_append, List.forall_mem_singleton, made]
      refine ⟨whole, ?_⟩
      rw [outputEntry, CStr.strncpy_text, txId]
      exact length_sha256Hex env _
    | refused _ spent => exact spent.forall_mem (fun _ => id) whole
  · cases model : ledger.model with
    | utxo =>
      cases op with
      | confirm | creditMiner => exact absurd trivial credit
      | transferNonce sender recipient amount nonce =>
        simpa [ledgerStep, LedgerOp.call, ledgerTransferWithNonce, model] using whole
      | transfer sender recipient amount =>
        simp only [ledgerStep, LedgerOp.call, ledgerTransfer, model]
        split
        · exact whole
        · split
          · exact whole
          · exact whole_utxoTransfer env whole sender recipient amount
    | account =>
      -- the set is not touched in this model
      have step := @opStep env ledger op (fun utxo => by rw [model] at utxo; cases utxo)
      rw [ledgerStep]
      generalize op.call env ledger = outcome at step
      cases step with
      | idle | lookedUp | credited | posted => exact whole
      | added other => rw [model] at other; cases other
      | refused other => rw [model] at other; cases other

/-- Whatever ledger attendance rewards, miner credits and transfers have led to, a transfer
that is refused leaves it alone exactly if both ids have their rows by then. -/
theorem refused_transfer_keeps_iff (env : Env) (model : LedgerModel) (registry : StudentRegistry)
    (ops : List LedgerOp) (attendance : ∀ op ∈ ops, op.FromAttendance) (op : LedgerOp)
    (transfer : ¬op.IsCredit) :
    let ledger := Runs.final (ledgerStep env) (ledgerInit model registry).2 ops
    KeepsWhenRefused env ledger op ↔ op.LeavesNothing ledger := by
  intro ledger
  have members : Runs.Guarded (ledgerStep env) (fun _ op => op ∈ ops)
      (ledgerInit model registry).2 ops :=
    Runs.guarded_of_forall_mem (ledgerStep env) (fun op member _ => member) _
  -- the outputs were made by the earlier calls, each under a hash of 64 characters
  have whole : ledger.utxoSet.Whole := Runs.guarded_invariant (ledgerStep env)
    (fun ledger => ledger.utxoSet.Whole)
    (fun ledger op whole member => whole_ledgerStep env (attendance op member) whole)
    (by simp [UTXOSet.Whole, entries_ledgerInit]) members
  cases op with
  | confirm | creditMiner => exact absurd trivial transfer
  | transferNonce sender recipient amount nonce =>
    cases active : ledger.model with
    | utxo =>
      -- in the other model the call is refused before it looks anything up
      simp [KeepsWhenRefused, LedgerOp.LeavesNothing, LedgerOp.call, ledgerTransferWithNonce,
        active]
    | account =>
      have keeps := @accountTransfer_keeps_iff ledger.accountLedger [] sender recipient amount nonce
      simp only [KeepsWhenRefused, LedgerOp.LeavesNothing, LedgerOp.call, ledgerTransferWithNonce,
        active, onAccounts_eq_self_iff, true_implies]
      refine keeps.trans (or_congr_left ?_)
      simp
  | transfer sender recipient amount =>
    by_cases positive : 0 < amount
    · by_cases same : sender = recipient
      -- a transfer to oneself is refused before it looks anything up
      · simp [KeepsWhenRefused, LedgerOp.LeavesNothing, LedgerOp.call, ledgerTransfer, same]
      · cases active : ledger.model with
        | account =>
          simp only [LedgerOp.LeavesNothing, positive, same, ne_eq, not_false_eq_true, true_implies,
            active]
          exact transfer_keeps_iff env active positive same
        | utxo =>
          have refused := utxoTransfer_refused_iff env whole sender recipient positive
          simp only [KeepsWhenRefused, LedgerOp.LeavesNothing, LedgerOp.call, ledgerTransfer,
            if_neg (Int32.not_le.mpr positive), active, positive, same, ne_eq, not_false_eq_true,
            true_implies]
          rw [← refused]
          simp [Ledger.onUtxos, Ledger.ext_iff]
    · simp [KeepsWhenRefused, LedgerOp.LeavesNothing, LedgerOp.call, ledgerTransfer, positive,
        Int32.not_lt.mp positive]

/-- A miner with 20 tokens cannot send 30 to a student, and both have had their rows before. -/
theorem refused_transfer_keeps_iff_sample :
    let ledger := Runs.final (ledgerStep Sample.env) (ledgerInit .account Sample.registry).2
      [.creditMiner "ALU001".toList 20]
    KeepsWhenRefused Sample.env ledger (.transferNonce "ALU001".toList "ALU002".toList 30 0) ↔
      (LedgerOp.transferNonce "ALU001".toList "ALU002".toList 30 0).LeavesNothing ledger :=
  refused_transfer_keeps_iff Sample.env .account Sample.registry _ (by decide) _ (by decide)

/-- A student without tokens cannot send any to an unknown id, which has a row all the same. -/
theorem refused_transfer_adds_row :
    let ledger := (ledgerInit .account Sample.registry).2
    let op := LedgerOp.transfer "ALU001".toList "GHOST".toList 5
    (op.call Sample.env ledger).ok = false ∧
    ledger.accountLedger.keys = ["ALU001".toList, "ALU002".toList] ∧
    (op.call Sample.env ledger).state.accountLedger.keys =
      ["ALU001".toList, "ALU002".toList, "GHOST".toList] ∧
    ¬KeepsWhenRefused Sample.env ledger op := by
  decide +kernel

end Attendance
