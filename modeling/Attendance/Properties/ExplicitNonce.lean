import Attendance.Ledger.Basic
import Attendance.Sample

/-!
# Transfers with an explicit nonce

`ledger_transfer` reads the nonce of the sender itself, `ledger_transfer_with_nonce` is
given one. The second entry point does not repeat the checks of the first: it accepts
amounts that are not positive and transfers to oneself. Given the current nonce, the two
agree exactly where those checks pass or the balance refuses the transfer anyway.
-/
namespace Attendance

open CText MachineInt Calls

/-- What both calls hand back when they return the same result and leave the same ledger. -/
def SameTransfer (env : Env) (ledger : Ledger) (sender recipient : List Char)
    (amount nonce : Int32) : Prop :=
  let explicit := ledgerTransferWithNonce ledger sender recipient amount nonce
  let plain := ledgerTransfer env ledger sender recipient amount
  explicit.ok = plain.ok ∧ explicit.state = plain.state

instance (env : Env) (ledger : Ledger) (sender recipient : List Char) (amount nonce : Int32) :
    Decidable (SameTransfer env ledger sender recipient amount nonce) :=
  inferInstanceAs (Decidable (_ ∧ _))

/-- Behind its own two checks, `ledger_transfer` is `account_transfer` with the nonce it read. -/
private theorem ledgerTransfer_of_position (env : Env) {ledger : Ledger}
    {sender recipient : List Char} {amount : Int32} {i : Nat} (model : ledger.model = .account)
    (row : Table.position Account.key sender ledger.accountLedger.accounts = some i)
    (positive : 0 < amount) (different : sender ≠ recipient) :
    ledgerTransfer env ledger sender recipient amount =
      ledger.onAccounts (accountTransfer ledger.accountLedger sender recipient amount
        (ledger.accountLedger.row i).nonce) := by
  rw [ledgerTransfer, if_neg (Int32.not_le.mpr positive), if_neg different, model]
  simp only [findOrCreateAccount_of_position row]

/-- What the checks of `ledger_transfer` refuse leaves the ledger alone. -/
private theorem ledgerTransfer_refused (env : Env) (ledger : Ledger) {sender recipient : List Char}
    {amount : Int32} (refused : ¬(0 < amount ∧ sender ≠ recipient)) :
    ledgerTransfer env ledger sender recipient amount = ⟨false, ledger, false⟩ := by
  unfold ledgerTransfer
  by_cases positive : 0 < amount
  · have same : sender = recipient := by
      by_contra different
      exact refused ⟨positive, different⟩
    rw [if_neg (Int32.not_le.mpr positive), if_pos same]
  · rw [if_pos (Int32.not_lt.mp positive)]

/-- Between two existing accounts, and with the current nonce of the sender, the explicit
call returns the same and leaves the same ledger as the plain one exactly if the checks of
the plain call pass or the balance does not cover the amount and the fee. -/
theorem explicit_nonce_agrees_iff (env : Env) (ledger : Ledger) (sender recipient : List Char)
    (amount nonce : Int32) (model : ledger.model = .account)
    (senderKnown : sender ∈ ledger.accountLedger.keys)
    (recipientKnown : recipient ∈ ledger.accountLedger.keys)
    (current : nonce = ledger.accountLedger.nonceOf sender) :
    SameTransfer env ledger sender recipient amount nonce ↔
      (0 < amount ∧ sender ≠ recipient) ∨ ledgerBalance ledger sender < amount + txFee := by
  obtain ⟨i, senderRow⟩ := exists_position_of_mem_keys senderKnown
  obtain ⟨j, recipientRow⟩ := exists_position_of_mem_keys recipientKnown
  have found := row_eq_of_position senderRow
  have nonce_eq : nonce = (ledger.accountLedger.row i).nonce := by
    rw [current, AccountLedger.nonceOf, found, Option.map_some, Option.getD_some]
  have balance : ledgerBalance ledger sender = (ledger.accountLedger.row i).balance := by
    simp only [ledgerBalance, model, AccountLedger.balanceOf, found, Option.map_some,
      Option.getD_some]
  have explicit : ledgerTransferWithNonce ledger sender recipient amount nonce =
      ledger.onAccounts (accountTransfer ledger.accountLedger sender recipient amount
        (ledger.accountLedger.row i).nonce) := by
    rw [ledgerTransferWithNonce, model, nonce_eq]
  rw [SameTransfer, explicit, balance]
  by_cases checked : 0 < amount ∧ sender ≠ recipient
  · rw [ledgerTransfer_of_position env model senderRow checked.1 checked.2]
    simp [checked]
  -- where the plain call refuses, only the balance can make the explicit one refuse as well
  · rw [ledgerTransfer_refused env ledger checked, or_iff_right checked,
      accountTransfer_of_position senderRow recipientRow]
    constructor
    · rintro ⟨failed, _⟩
      by_contra covered
      rw [if_neg covered] at failed
      cases failed
    · intro short
      rw [if_pos short]
      exact ⟨rfl, rfl⟩

/-- A transfer of 5 tokens that the sender has, with the nonce 0 of a new account. -/
theorem explicit_nonce_agrees_iff_sample :
    let ledger := (ledgerCreditMiner Sample.env (ledgerInit .account Sample.registry).2
      "ALU001".toList 20).state
    SameTransfer Sample.env ledger "ALU001".toList "ALU002".toList 5 0 ↔
      ((0 : Int32) < 5 ∧ "ALU001".toList ≠ "ALU002".toList) ∨
        ledgerBalance ledger "ALU001".toList < 5 + txFee :=
  explicit_nonce_agrees_iff Sample.env _ _ _ 5 0 (by decide +kernel) (by decide +kernel)
    (by decide +kernel) (by decide +kernel)

/-- The plain call refuses a negative amount; the explicit one takes it from the recipient. -/
theorem explicit_nonce_takes_negative_amount :
    let ledger := (ledgerInit .account Sample.registry).2
    let explicit := ledgerTransferWithNonce ledger "ALU001".toList "ALU002".toList (-5) 0
    ledger.model = .account ∧ "ALU001".toList ∈ ledger.accountLedger.keys ∧
    "ALU002".toList ∈ ledger.accountLedger.keys ∧
    ledger.accountLedger.nonceOf "ALU001".toList = 0 ∧
    (ledgerTransfer Sample.env ledger "ALU001".toList "ALU002".toList (-5)).ok = false ∧
    explicit.ok = true ∧ (ledgerBalance explicit.state "ALU002".toList).toInt = -5 ∧
    ¬SameTransfer Sample.env ledger "ALU001".toList "ALU002".toList (-5) 0 := by
  decide +kernel

end Attendance
