import Attendance.Ledger.Accounts
import Attendance.Ledger.Utxos

/-!
# The ledger

The entry points of `ledger.c`, which dispatch on the active model.
-/
namespace Attendance

open CText MachineInt

/-- The loop of `ledger_init`: one row for each student, until the table is full. -/
def createAccounts (ledger : AccountLedger) : List Student → Bool × AccountLedger
  | [] => (true, ledger)
  | student :: students =>
    match findOrCreateAccount ledger student.studentId.text with
    | (ledger, none) => (false, ledger)
    | (ledger, some _) => createAccounts ledger students

def emptyLedger (model : LedgerModel) : Ledger := ⟨model, .empty, .empty⟩

def ledgerInit (model : LedgerModel) (registry : StudentRegistry) : Bool × Ledger :=
  match model with
  -- the set starts empty, whoever is registered
  | .utxo => (true, emptyLedger .utxo)
  | .account =>
    let created := createAccounts .empty registry.students
    (created.1, { emptyLedger .account with accountLedger := created.2 })

/-- `ledger_cleanup` frees the histories of a ledger that `ledger_init` then clears. -/
def ledgerSetModel (model : LedgerModel) (registry : StudentRegistry) : Ledger :=
  (ledgerInit model registry).2

/-- A call on the account table, as a call on the ledger. -/
def Ledger.onAccounts (ledger : Ledger) (outcome : Outcome AccountLedger) : Outcome Ledger :=
  ⟨outcome.ok, { ledger with accountLedger := outcome.state }, outcome.overflow⟩

/-- A call on the UTXO set, as a call on the ledger. -/
def Ledger.onUtxos (ledger : Ledger) (outcome : Outcome UTXOSet) : Outcome Ledger :=
  ⟨outcome.ok, { ledger with utxoSet := outcome.state }, outcome.overflow⟩

def ledgerApplyConfirmedBlock (ledger : Ledger) (block : Block) (tx : Transaction) :
    Outcome Ledger :=
  if block.tokenReward ≤ 0 then ⟨true, ledger, false⟩
  else
    match ledger.model with
    | .utxo =>
      let applied := utxoApplyReward ledger.utxoSet tx
      ledger.onUtxos ⟨applied.1, applied.2, false⟩
    | .account => ledger.onAccounts (accountApplyReward ledger.accountLedger tx)

def ledgerTransfer (env : Env) (ledger : Ledger) (sender recipient : List Char)
    (amount : Int32) : Outcome Ledger :=
  if amount ≤ 0 then ⟨false, ledger, false⟩
  else if sender = recipient then ⟨false, ledger, false⟩
  else
    match ledger.model with
    | .utxo => ledger.onUtxos (utxoTransfer env ledger.utxoSet sender recipient amount)
    | .account =>
      -- read here only for the nonce; `account_transfer` looks both ids up again
      match findOrCreateAccount ledger.accountLedger sender with
      | (accounts, none) => ledger.onAccounts ⟨false, accounts, false⟩
      | (accounts, some senderRow) =>
        ledger.onAccounts
          (accountTransfer accounts sender recipient amount (accounts.row senderRow).nonce)

def ledgerTransferWithNonce (ledger : Ledger) (sender recipient : List Char)
    (amount nonce : Int32) : Outcome Ledger :=
  match ledger.model with
  | .utxo => ⟨false, ledger, false⟩
  | .account =>
    ledger.onAccounts (accountTransfer ledger.accountLedger sender recipient amount nonce)

def ledgerBalance (ledger : Ledger) (studentId : List Char) : Int32 :=
  match ledger.model with
  | .utxo => utxoBalance ledger.utxoSet studentId
  | .account => ledger.accountLedger.balanceOf studentId

/-- What an id owns, added up in unbounded integers. -/
def Ledger.exactBalance (ledger : Ledger) (studentId : List Char) : Int :=
  match ledger.model with
  | .utxo => exactSum (unspentAmounts ledger.utxoSet studentId)
  | .account => (ledger.accountLedger.balanceOf studentId).toInt

/-- Adding up the balance of the id stays in the range of `int`. -/
def Ledger.BalanceInRange (ledger : Ledger) (studentId : List Char) : Prop :=
  InInt (ledger.exactBalance studentId)

theorem ofInt_exactBalance (ledger : Ledger) (studentId : List Char) :
    Int32.ofInt (ledger.exactBalance studentId) = ledgerBalance ledger studentId := by
  unfold Ledger.exactBalance ledgerBalance
  split
  · rw [ofInt_exactSum, utxoBalance_eq]
  · rw [Int32.ofInt_toInt]

theorem balanceInRange_of_account {ledger : Ledger} (model : ledger.model = .account)
    (studentId : List Char) : ledger.BalanceInRange studentId := by
  simp only [Ledger.BalanceInRange, Ledger.exactBalance, model]
  exact inInt_toInt _

theorem toInt_ledgerBalance {ledger : Ledger} {studentId : List Char}
    (inRange : ledger.BalanceInRange studentId) :
    (ledgerBalance ledger studentId).toInt = ledger.exactBalance studentId := by
  rw [← ofInt_exactBalance, toInt_ofInt_of_inInt inRange]

def minerTransaction (minerId : List Char) (amount : Int32) : Transaction :=
  { isReward := true, outputs := [⟨.strncpy minerId, amount⟩] }

theorem outputs_minerTransaction (minerId : List Char) (amount : Int32) (txId : CStr hashLen) :
    ({ minerTransaction minerId amount with txId } : Transaction).outputs =
      [⟨.strncpy minerId, amount⟩] := rfl

def ledgerCreditMiner (env : Env) (ledger : Ledger) (minerId : List Char) (amount : Int32) :
    Outcome Ledger :=
  if amount ≤ 0 then ⟨false, ledger, false⟩
  else
    -- the id is computed in both models, but the account model does not store it
    match computeTransactionId env (minerTransaction minerId amount) with
    | none => ⟨false, ledger, false⟩
    | some txId =>
      match ledger.model with
      | .utxo =>
        let applied := utxoApplyReward ledger.utxoSet { minerTransaction minerId amount with txId }
        ledger.onUtxos ⟨applied.1, applied.2, false⟩
      | .account =>
        match findOrCreateAccount ledger.accountLedger minerId with
        | (accounts, none) => ledger.onAccounts ⟨false, accounts, false⟩
        | (accounts, some i) =>
          ledger.onAccounts
            ⟨true, accounts.modifyRow i (creditAccount · "MINER".toList minerId amount 0),
              addOverflows (accounts.row i).balance amount⟩

/-! ### Credits

Both models credit one owner with one amount, and fail only for want of room. -/

/-- There is a row or an entry left for a credit to `owner`. -/
def Ledger.HasRoomFor (ledger : Ledger) (owner : List Char) : Prop :=
  match ledger.model with
  | .utxo => ledger.utxoSet.entries.length < maxUtxos
  | .account => Table.position Account.key owner ledger.accountLedger.accounts ≠ none ∨
      ledger.accountLedger.accounts.length < maxStudents

instance (ledger : Ledger) (owner : List Char) : Decidable (ledger.HasRoomFor owner) :=
  match ledger with
  | ⟨.utxo, set, _⟩ => inferInstanceAs (Decidable (set.entries.length < maxUtxos))
  | ⟨.account, _, _⟩ => inferInstanceAs (Decidable (_ ∨ _))

/-- Every owner but one keeps its balance, and that one gains `amount`. -/
def Gains (before after : Ledger) (owner : List Char) (amount : Int) : Prop :=
  ∀ studentId, after.exactBalance studentId =
    before.exactBalance studentId + if studentId = owner then amount else 0

private theorem gains_of_appended {ledger : Ledger} {longer : UTXOSet} {entry : UTXO}
    (model : ledger.model = .utxo) (appended : longer.entries = ledger.utxoSet.entries ++ [entry])
    (unspent : entry.spent = false) :
    Gains ledger { ledger with utxoSet := longer } entry.owner.text entry.amount.toInt := by
  intro studentId
  simp only [Ledger.exactBalance, model, unspentAmounts_concat appended unspent, exactSum_append]
  split <;> simp

private theorem gains_of_credited {ledger : Ledger} {accounts : AccountLedger} {owner : List Char}
    {i : Nat} {f : Account → Account} {amount : Int32} (model : ledger.model = .account)
    (short : owner.length < studentIdLen)
    (returned : findOrCreateAccount ledger.accountLedger owner = (accounts, some i))
    (credits : Credits f amount)
    (fits : addOverflows (accounts.row i).balance amount = false) :
    Gains ledger { ledger with accountLedger := accounts.modifyRow i f } owner amount.toInt := by
  intro studentId
  have found := position_findOrCreateAccount short returned
  have same := balanceOf_findOrCreateAccount ledger.accountLedger owner studentId
  rw [returned] at same
  simp only [Ledger.exactBalance, model, balanceOf_modifyRow found credits, ← same]
  split
  next owned =>
    subst owned
    have row : accounts.balanceOf studentId = (accounts.row i).balance := by
      rw [AccountLedger.balanceOf, row_eq_of_position found, Option.map_some, Option.getD_some]
    rw [row, toInt_add_of_fits fits]
  next => rw [Int32.add_zero, Int.add_zero]

/-- A lookup that finds a row or adds one says that there was room. -/
theorem hasRoomFor_iff {ledger : Ledger} (model : ledger.model = .account)
    (owner : List Char) :
    ledger.HasRoomFor owner ↔ (findOrCreateAccount ledger.accountLedger owner).2.isSome = true := by
  simp only [Ledger.HasRoomFor, model]
  rcases findOrCreateAccount_cases ledger.accountLedger owner with
    ⟨i, found, result⟩ | ⟨absent, longer, rows, result⟩ | ⟨absent, full, result⟩
  · simp [found, result]
  · have grown := longer.fits
    rw [rows, List.length_append, List.length_singleton] at grown
    simp [absent, result]
    omega
  · simp [absent, full, result]

/-- What a credit of the amount to the owner can do: add an entry, post to a row, or fail for
want of room and do nothing. -/
inductive CreditStep (ledger : Ledger) (source owner : List Char) (amount fee : Int32)
    (txId : List Char) : Outcome Ledger → Prop where
  | added {longer : UTXOSet} (model : ledger.model = .utxo)
      (room : ledger.utxoSet.entries.length < maxUtxos)
      (appended : longer.entries = ledger.utxoSet.entries ++
        [outputEntry txId 0 ⟨.strncpy owner, amount⟩]) :
      CreditStep ledger source owner amount fee txId
        ⟨true, { ledger with utxoSet := longer }, false⟩
  | posted {accounts : AccountLedger} {i : Nat} (model : ledger.model = .account)
      (row : findOrCreateAccount ledger.accountLedger owner = (accounts, some i)) :
      CreditStep ledger source owner amount fee txId
        ⟨true, { ledger with
            accountLedger := accounts.modifyRow i (creditAccount · source owner amount fee) },
          addOverflows (accounts.row i).balance amount⟩
  | full (full : ¬ledger.HasRoomFor owner) :
      CreditStep ledger source owner amount fee txId ⟨false, ledger, false⟩

private theorem creditStep_utxoApplyReward {ledger : Ledger} {tx : Transaction}
    {owner : List Char} {amount : Int32} (source : List Char) (fee : Int32)
    (model : ledger.model = .utxo) (outputs : tx.outputs = [⟨.strncpy owner, amount⟩]) :
    CreditStep ledger source owner amount fee tx.txId.text
      (ledger.onUtxos ⟨(utxoApplyReward ledger.utxoSet tx).1,
        (utxoApplyReward ledger.utxoSet tx).2, false⟩) := by
  rcases utxoApplyReward_single ledger.utxoSet outputs with
    ⟨room, longer, appended, result⟩ | ⟨full, result⟩
  · rw [result]
    exact .added model room appended
  · rw [result]
    apply CreditStep.full
    simp only [Ledger.HasRoomFor, model]
    omega

private theorem creditStep_findOrCreateAccount {ledger : Ledger} {owner : List Char}
    {accounts : AccountLedger} (source : List Char) (amount fee : Int32) (txId : List Char)
    (model : ledger.model = .account)
    (missing : findOrCreateAccount ledger.accountLedger owner = (accounts, none)) :
    CreditStep ledger source owner amount fee txId
      (ledger.onAccounts ⟨false, accounts, false⟩) := by
  rw [findOrCreateAccount_none missing]
  apply CreditStep.full
  simp [hasRoomFor_iff model, missing]

/-- A confirmed block credits its one output. -/
theorem creditStep_ledgerApplyConfirmedBlock (ledger : Ledger) {block : Block} {tx : Transaction}
    {output : TxOutput} (positive : 0 < block.tokenReward) (outputs : tx.outputs = [output]) :
    CreditStep ledger "SYSTEM".toList output.owner.text output.amount tx.fee tx.txId.text
      (ledgerApplyConfirmedBlock ledger block tx) := by
  rw [ledgerApplyConfirmedBlock, if_neg (Int32.not_le.mpr positive)]
  cases model : ledger.model with
  | utxo =>
    apply creditStep_utxoApplyReward _ _ model
    rw [outputs, CStr.strncpy_text]
  | account =>
    simp only [accountApplyReward, outputs, applyRewardOutputs]
    cases result : findOrCreateAccount ledger.accountLedger output.owner.text with
    | mk accounts row =>
      cases row with
      | none => exact creditStep_findOrCreateAccount _ _ _ _ model result
      | some i =>
        simp only [Bool.or_false]
        exact .posted model result

theorem creditStep_ledgerCreditMiner (env : Env) (ledger : Ledger) (minerId : List Char)
    {amount : Int32} (positive : 0 < amount) :
    CreditStep ledger "MINER".toList minerId amount 0
      (sha256Hex env (transactionText (minerTransaction minerId amount))).text
      (ledgerCreditMiner env ledger minerId amount) := by
  rw [ledgerCreditMiner, if_neg (Int32.not_le.mpr positive),
    computeTransactionId_single env rfl rfl]
  cases model : ledger.model with
  | utxo => exact creditStep_utxoApplyReward _ _ model (outputs_minerTransaction minerId amount _)
  | account =>
    simp only
    cases result : findOrCreateAccount ledger.accountLedger minerId with
    | mk accounts row =>
      cases row with
      | none => exact creditStep_findOrCreateAccount _ _ _ _ model result
      | some i => exact .posted model result

section CreditStep

variable {ledger : Ledger} {source owner : List Char} {amount fee : Int32} {txId : List Char}
  {outcome : Outcome Ledger} (step : CreditStep ledger source owner amount fee txId outcome)
include step

theorem CreditStep.ok_iff : outcome.ok = true ↔ ledger.HasRoomFor owner := by
  cases step with
  | added model room => simpa [Ledger.HasRoomFor, model] using room
  | posted model row => simp [hasRoomFor_iff model, row]
  | full full => simp [full]

theorem CreditStep.eq_of_full (full : ¬ledger.HasRoomFor owner) :
    outcome = ⟨false, ledger, false⟩ := by
  rw [← step.ok_iff] at full
  cases step with
  | added | posted => exact absurd rfl full
  | full => rfl

/-- An owner whose id fits a row gains the amount, if it is within range. -/
theorem CreditStep.gains (short : owner.length < studentIdLen) (room : ledger.HasRoomFor owner)
    (fits : outcome.overflow = false) : Gains ledger outcome.state owner amount.toInt := by
  rw [← step.ok_iff] at room
  cases step with
  | added model _ appended =>
    have gains := gains_of_appended model appended rfl
    rwa [outputEntry, CStr.text_strncpy short] at gains
  | posted model row => exact gains_of_credited model short row (credits_creditAccount _ _ _ _) fits
  | full => cases room

/-- Other ids than the one stored keep their balances. -/
theorem CreditStep.exactBalance_other {studentId : List Char}
    (different : studentId ≠ (CStr.strncpy owner : CStr studentIdLen).text) :
    outcome.state.exactBalance studentId = ledger.exactBalance studentId := by
  cases step with
  | added model _ appended =>
    have gains := gains_of_appended model appended rfl studentId
    rwa [outputEntry, if_neg different, Int.add_zero] at gains
  | posted model row =>
    have same := balanceOf_credited_other row (credits_creditAccount source owner amount fee)
      different
    simp only [Ledger.exactBalance, model]
    rw [same]
  | full => rfl

end CreditStep

/-- A confirmed block pays its one output, or fails and leaves the ledger alone. -/
theorem ledgerApplyConfirmedBlock_cases (ledger : Ledger) {block : Block} {tx : Transaction}
    {output : TxOutput} (positive : 0 < block.tokenReward) (outputs : tx.outputs = [output]) :
    (ledger.HasRoomFor output.owner.text ∧ (ledgerApplyConfirmedBlock ledger block tx).ok = true ∧
      ((ledgerApplyConfirmedBlock ledger block tx).overflow = false →
        Gains ledger (ledgerApplyConfirmedBlock ledger block tx).state output.owner.text
          output.amount.toInt)) ∨
    (¬ledger.HasRoomFor output.owner.text ∧
      ledgerApplyConfirmedBlock ledger block tx = ⟨false, ledger, false⟩) := by
  have step := creditStep_ledgerApplyConfirmedBlock ledger positive outputs
  by_cases room : ledger.HasRoomFor output.owner.text
  · exact Or.inl ⟨room, step.ok_iff.mpr room, step.gains output.owner.fits room⟩
  · exact Or.inr ⟨room, step.eq_of_full room⟩

/-- Crediting a miner leaves the ids that are not stored for the miner alone. -/
theorem exactBalance_ledgerCreditMiner_other (env : Env) (ledger : Ledger)
    {minerId studentId : List Char} (amount : Int32)
    (different : studentId ≠ (CStr.strncpy minerId : CStr studentIdLen).text) :
    (ledgerCreditMiner env ledger minerId amount).state.exactBalance studentId =
      ledger.exactBalance studentId := by
  by_cases positive : 0 < amount
  · exact (creditStep_ledgerCreditMiner env ledger minerId positive).exactBalance_other different
  · rw [ledgerCreditMiner, if_pos (Int32.not_lt.mp positive)]

theorem ok_ledgerCreditMiner_iff (env : Env) {ledger : Ledger} {minerId : List Char}
    {amount : Int32} (positive : 0 < amount) :
    (ledgerCreditMiner env ledger minerId amount).ok = true ↔ ledger.HasRoomFor minerId :=
  (creditStep_ledgerCreditMiner env ledger minerId positive).ok_iff

/-- Without room a credit to a miner fails and leaves the ledger alone. -/
theorem ledgerCreditMiner_of_full (env : Env) {ledger : Ledger} {minerId : List Char}
    (amount : Int32) (full : ¬ledger.HasRoomFor minerId) :
    ledgerCreditMiner env ledger minerId amount = ⟨false, ledger, false⟩ := by
  by_cases positive : 0 < amount
  · exact (creditStep_ledgerCreditMiner env ledger minerId positive).eq_of_full full
  · rw [ledgerCreditMiner, if_pos (Int32.not_lt.mp positive)]

end Attendance
