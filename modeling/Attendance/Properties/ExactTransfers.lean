import Attendance.Ledger.Operations
import Attendance.Sample

/-!
# What an accepted transfer changes

Between two different accounts, `ledger_transfer_with_nonce` accepts exactly the current
nonce and a covered amount. It then rewrites the rows of the two parties, in full and to the
coin, and no other row. A refused transfer between them changes nothing.
-/
namespace Attendance

open CText MachineInt Calls

/-- What a transfer makes of a row: both parties get the same node in front of their
histories, the sender pays the amount and the fee and counts the transfer. -/
inductive RowMoves (sender recipient : List Char) (amount nonce : Int32) (old new : Account) :
    Prop where
  | sender (owner : old.key = sender) (studentId : new.studentId = old.studentId)
      (balance : new.balance.toInt = old.balance.toInt - (amount.toInt + txFee.toInt))
      (counted : new.nonce.toInt = old.nonce.toInt + 1)
      (history : new.history = transferNode sender recipient amount nonce :: old.history)
  | recipient (owner : old.key = recipient) (studentId : new.studentId = old.studentId)
      (balance : new.balance.toInt = old.balance.toInt + amount.toInt)
      (uncounted : new.nonce = old.nonce)
      (history : new.history = transferNode sender recipient amount nonce :: old.history)
  | other (notSender : old.key ≠ sender) (notRecipient : old.key ≠ recipient) (same : new = old)

/-- The ledger after a transfer, row by row. -/
structure MovesExactly (before after : Ledger) (sender recipient : List Char)
    (amount nonce : Int32) : Prop where
  model : after.model = before.model
  utxoSet : after.utxoSet = before.utxoSet
  rows : List.Forall₂ (RowMoves sender recipient amount nonce) before.accountLedger.accounts
    after.accountLedger.accounts

/-- In a table of distinct ids a key names one position. -/
private theorem eq_of_key_row {ledger : AccountLedger} {studentId : List Char} {i k : Nat}
    (distinct : ledger.keys.Nodup)
    (found : Table.position Account.key studentId ledger.accounts = some i)
    (inside : k < ledger.accounts.length) (owner : (ledger.row k).key = studentId) : i = k := by
  have here : ledger.keys[k]? = some studentId := by
    simp only [AccountLedger.keys, List.getElem?_map, List.getElem?_eq_getElem inside,
      Option.map_some, Option.some_inj]
    simpa [AccountLedger.row, inside] using owner
  have length : i < ledger.keys.length := by
    rw [length_keys]
    exact Table.position_lt Account.key found
  exact (List.getElem?_inj length distinct).mp ((getElem?_keys found).trans here.symm)

private theorem key_row {ledger : AccountLedger} {studentId : List Char} {i : Nat}
    (found : Table.position Account.key studentId ledger.accounts = some i) :
    (ledger.row i).key = studentId :=
  Table.key_of_lookup Account.key (row_eq_of_position found)

/-- Posting between two different rows moves the coins exactly when nothing overflows. -/
private theorem rowMoves_postTransfer {ledger : AccountLedger} {sender recipient : List Char}
    {i j : Nat} {amount : Int32} (nonce : Int32) (distinct : ledger.keys.Nodup)
    (senderRow : Table.position Account.key sender ledger.accounts = some i)
    (recipientRow : Table.position Account.key recipient ledger.accounts = some j)
    (different : i ≠ j) (fits : addOverflows amount txFee = false)
    (fits' : postOverflows ledger i j amount = false) :
    List.Forall₂ (RowMoves sender recipient amount nonce) ledger.accounts
      (postTransfer ledger i j sender recipient amount nonce).accounts := by
  simp only [postOverflows, Bool.or_eq_false_iff] at fits'
  obtain ⟨⟨debit, credit⟩, count⟩ := fits'
  rw [balance_debitSender amount (Table.position_lt Account.key recipientRow), if_neg different]
    at credit
  rw [List.forall₂_iff_get]
  refine ⟨by simp [postTransfer, debitSender], ?_⟩
  intro k inside inside'
  have row := @row_postTransfer ledger i j k sender recipient amount nonce inside
  have old : ledger.accounts.get ⟨k, inside⟩ = ledger.row k := by
    simp [AccountLedger.row, inside]
  have new : (postTransfer ledger i j sender recipient amount nonce).accounts.get ⟨k, inside'⟩ =
      (postTransfer ledger i j sender recipient amount nonce).row k := by
    simp [AccountLedger.row, inside']
  rw [old, new, row]
  by_cases isSender : i = k
  · subst isSender
    rw [if_pos rfl, if_neg different.symm]
    refine .sender (key_row senderRow) rfl ?_ (toInt_add_of_fits count) rfl
    rw [toInt_sub_of_fits debit, toInt_add_of_fits fits]
  · rw [if_neg isSender]
    by_cases isRecipient : j = k
    · subst isRecipient
      rw [if_pos rfl]
      exact .recipient (key_row recipientRow) rfl (toInt_add_of_fits credit) rfl rfl
    · rw [if_neg isRecipient]
      -- the ids are distinct, so a third row belongs to a third id
      exact .other (fun owner => isSender (eq_of_key_row distinct senderRow inside owner))
        (fun owner => isRecipient (eq_of_key_row distinct recipientRow inside owner)) rfl

/-- A debit that the sender covers stays in range, so that the range of the results decides. -/
private theorem postOverflows_of_covered {ledger : AccountLedger} {i j : Nat} {amount : Int32}
    (different : i ≠ j) (inside : j < ledger.accounts.length) (positive : 0 < amount)
    (fits : addOverflows amount txFee = false)
    (covered : amount.toInt + txFee.toInt ≤ (ledger.row i).balance.toInt)
    (credit : InInt ((ledger.row j).balance.toInt + amount.toInt))
    (count : InInt ((ledger.row i).nonce.toInt + 1)) : postOverflows ledger i j amount = false := by
  have one : (txFee : Int32).toInt = 1 := rfl
  have value : (0 : Int) < amount.toInt := Int32.lt_iff_toInt_lt.mp positive
  -- the sender is left between zero and its old balance
  have lowers : subOverflows (ledger.row i).balance (amount + txFee) = false := by
    have high := (inInt_toInt (ledger.row i).balance).2
    rw [subOverflows_eq_false_iff, toInt_add_of_fits fits]
    constructor <;> omega
  rw [postOverflows, lowers, balance_debitSender amount inside, if_neg different,
    addOverflows_eq_false_iff.mpr credit, addOverflows_eq_false_iff.mpr count]
  rfl

/-- Between two different accounts of a table with distinct ids, and as long as the results
are within `int`, the call returns true exactly for the nonce of the sender and an amount
that its balance covers together with the fee. Then the sender pays both and counts the
transfer, the recipient gets the amount, both histories start with the same new node, and
nothing else changes. Otherwise nothing changes at all. -/
theorem transfer_moves_exactly (ledger : Ledger) (sender recipient : List Char)
    (amount nonce : Int32) (model : ledger.model = .account)
    (distinct : ledger.accountLedger.keys.Nodup)
    (senderKnown : sender ∈ ledger.accountLedger.keys)
    (recipientKnown : recipient ∈ ledger.accountLedger.keys) (different : sender ≠ recipient)
    (positive : 0 < amount) (debit : InInt (amount.toInt + txFee.toInt))
    (credit : InInt ((ledger.accountLedger.balanceOf recipient).toInt + amount.toInt))
    (count : InInt ((ledger.accountLedger.nonceOf sender).toInt + 1)) :
    let result := ledgerTransferWithNonce ledger sender recipient amount nonce
    result.overflow = false ∧
    (result.ok = true ↔ nonce = ledger.accountLedger.nonceOf sender ∧
      amount.toInt + txFee.toInt ≤ (ledger.accountLedger.balanceOf sender).toInt) ∧
    (result.ok = true → MovesExactly ledger result.state sender recipient amount nonce) ∧
    (result.ok = false → result.state = ledger) := by
  intro result
  obtain ⟨i, senderRow⟩ := exists_position_of_mem_keys senderKnown
  obtain ⟨j, recipientRow⟩ := exists_position_of_mem_keys recipientKnown
  -- different ids stand in different rows
  have rows : i ≠ j := by
    rintro rfl
    exact different ((key_row senderRow).symm.trans (key_row recipientRow))
  have fits : addOverflows amount txFee = false := addOverflows_eq_false_iff.mpr debit
  simp only [AccountLedger.nonceOf, AccountLedger.balanceOf, row_eq_of_position senderRow,
    row_eq_of_position recipientRow, Option.map_some, Option.getD_some] at credit count ⊢
  have called : result = ledger.onAccounts
      (accountTransfer ledger.accountLedger sender recipient amount nonce) := by
    simp only [result, ledgerTransferWithNonce, model]
  rw [accountTransfer_of_positions senderRow recipientRow] at called
  split at called
  -- refused for its nonce
  next wrong => simp [called, Ledger.onAccounts, fits, wrong]
  next current =>
    have current := not_not.mp current
    split at called
    -- refused for its amount
    next short =>
      rw [Int32.lt_iff_toInt_lt, toInt_add_of_fits fits] at short
      simp [called, Ledger.onAccounts, fits, Int.not_le.mpr short]
    next covered =>
      have covered := Int32.le_iff_toInt_le.mp (Int32.not_lt.mp covered)
      rw [toInt_add_of_fits fits] at covered
      -- a covered debit cannot overflow, and the two other sums fit by assumption
      have posts := postOverflows_of_covered rows (Table.position_lt Account.key recipientRow)
        positive fits covered credit count
      have moves := rowMoves_postTransfer nonce distinct senderRow recipientRow rows fits posts
      refine ⟨by simp [called, Ledger.onAccounts, fits, posts], ?_, ?_, ?_⟩
      · simp [called, Ledger.onAccounts, current, covered]
      · intro _
        rw [called]
        exact ⟨rfl, rfl, moves⟩
      · simp [called, Ledger.onAccounts]

/-- A miner with 20 tokens sends 5. -/
theorem transfer_moves_exactly_sample :
    let ledger := (ledgerCreditMiner Sample.env (ledgerInit .account Sample.registry).2
      "ALU001".toList 20).state
    let result := ledgerTransferWithNonce ledger "ALU001".toList "ALU002".toList 5 0
    result.overflow = false ∧
    (result.ok = true ↔ (0 : Int32) = ledger.accountLedger.nonceOf "ALU001".toList ∧
      (5 : Int32).toInt + txFee.toInt ≤
        (ledger.accountLedger.balanceOf "ALU001".toList).toInt) ∧
    (result.ok = true →
      MovesExactly ledger result.state "ALU001".toList "ALU002".toList 5 0) ∧
    (result.ok = false → result.state = ledger) :=
  transfer_moves_exactly _ _ _ 5 0 (by decide +kernel) (by decide +kernel) (by decide +kernel)
    (by decide +kernel) (by decide) (by decide) (by decide) (by decide +kernel)
    (by decide +kernel)

end Attendance
