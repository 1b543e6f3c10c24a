import Attendance.Ledger.Basic
import Attendance.Sample

/-!
# Transfers at the limits of int

The only check on the amount of a transfer is that it is positive. For the largest `int`
the sum of the amount and the fee wraps around to the smallest one, which any sender can
pay. For every smaller amount the arithmetic stays in range, and a transfer that is
accepted is funded.
-/
namespace Attendance

open CText MachineInt Calls

/-- One of the two balances an accepted transfer writes leaves the range of `int`. -/
def balancesOverflow (ledger : AccountLedger) (senderRow recipientRow : Nat) (amount : Int32) :
    Bool :=
  subOverflows (ledger.row senderRow).balance (amount + txFee) ||
    addOverflows ((debitSender ledger senderRow amount).row recipientRow).balance amount

/-- Some addition or subtraction of amounts in `account_transfer` leaves the range. -/
def accountAmountsOverflow (ledger : AccountLedger) (sender recipient : List Char)
    (amount nonce : Int32) : Bool :=
  addOverflows amount txFee ||
    ((accountTransfer ledger sender recipient amount nonce).ok &&
      match (findOrCreateAccount ledger sender).2,
        (findOrCreateAccount (lookups ledger [sender]) recipient).2 with
      | some i, some j => balancesOverflow (lookups ledger [sender, recipient]) i j amount
      | _, _ => false)

/-- Some addition or subtraction of amounts in `ledger_transfer`, behind its two checks,
leaves the range. Without a row for the sender nothing is added up. -/
def transferAmountsOverflow (env : Env) (ledger : Ledger) (sender recipient : List Char)
    (amount : Int32) : Bool :=
  match ledger.model with
  | .utxo => (utxoTransfer env ledger.utxoSet sender recipient amount).overflow
  | .account =>
    match findOrCreateAccount ledger.accountLedger sender with
    | (_, none) => false
    | (accounts, some i) =>
      accountAmountsOverflow accounts sender recipient amount (accounts.row i).nonce

private theorem overflow_accountTransfer (ledger : AccountLedger) (sender recipient : List Char)
    (amount nonce : Int32) :
    (accountTransfer ledger sender recipient amount nonce).overflow =
      (accountAmountsOverflow ledger sender recipient amount nonce ||
        ((accountTransfer ledger sender recipient amount nonce).ok && addOverflows nonce 1)) := by
  unfold accountAmountsOverflow
  rcases accountTransfer_cases ledger sender recipient amount nonce with
    ⟨_, refused⟩ | ⟨_, i, j, senderRow, recipientRow, current, _, posted⟩
  · simp [refused]
  · simp [posted, senderRow, recipientRow, ← current, postOverflows, balancesOverflow,
      Bool.or_assoc]

/-- Apart from amounts, a transfer adds only to the nonce of the sender. -/
theorem overflow_ledgerTransfer (env : Env) (ledger : Ledger) {sender recipient : List Char}
    {amount : Int32} (positive : 0 < amount) (different : sender ≠ recipient) :
    (ledgerTransfer env ledger sender recipient amount).overflow = true ↔
      transferAmountsOverflow env ledger sender recipient amount = true ∨
      (ledger.model = .account ∧ (ledgerTransfer env ledger sender recipient amount).ok = true ∧
        addOverflows (ledger.accountLedger.nonceOf sender) 1 = true) := by
  rw [ledgerTransfer, if_neg (Int32.not_le.mpr positive), if_neg different]
  cases model : ledger.model with
  | utxo => simp [transferAmountsOverflow, model, Ledger.onUtxos]
  | account =>
    cases result : findOrCreateAccount ledger.accountLedger sender with
    | mk accounts row =>
      cases row with
      | none => simp [transferAmountsOverflow, model, result, Ledger.onAccounts]
      | some i =>
        have nonce := read_row_findOrCreateAccount Account.nonce (fun _ => rfl) result
        simp only [transferAmountsOverflow, model, result, Ledger.onAccounts, true_and,
          overflow_accountTransfer, Bool.or_eq_true, Bool.and_eq_true, nonce,
          AccountLedger.nonceOf]

/-- Every amount the ledger holds is zero or more. -/
def Ledger.HoldingsNonneg (ledger : Ledger) : Prop :=
  (ledger.model = .utxo → ∀ entry ∈ ledger.utxoSet.entries, 0 ≤ entry.amount.toInt) ∧
    (ledger.model = .account → ∀ account ∈ ledger.accountLedger.accounts, 0 ≤ account.balance.toInt)

/-- What each owner has in unspent entries, or what all accounts have together, fits in an
`int`. -/
def Ledger.TotalsInRange (ledger : Ledger) : Prop :=
  (ledger.model = .utxo → ∀ owner, InInt (exactSum (unspentAmounts ledger.utxoSet owner))) ∧
    (ledger.model = .account → InInt (exactSum ledger.accountLedger.balances))

/-- The transfer computes no amount outside the range of `int`, and is accepted only if the
sender has the amount and the fee. -/
def SafeTransfer (env : Env) (ledger : Ledger) (sender recipient : List Char) (amount : Int32) :
    Prop :=
  transferAmountsOverflow env ledger sender recipient amount = false ∧
    ((ledgerTransfer env ledger sender recipient amount).ok = true →
      amount.toInt + txFee.toInt ≤ (ledgerBalance ledger sender).toInt)

/-! ### Unspent outputs -/

/-- The selection adds up what the sender has, and the change is a part of it. -/
private theorem utxoTransfer_safe (env : Env) {set : UTXOSet} {sender : List Char}
    (recipient : List Char) {amount : Int32} (positive : 0 < amount)
    (nonneg : ∀ entry ∈ set.entries, 0 ≤ entry.amount.toInt)
    (total : InInt (exactSum (unspentAmounts set sender)))
    (fits : addOverflows amount txFee = false) :
    (utxoTransfer env set sender recipient amount).overflow = false ∧
    ((utxoTransfer env set sender recipient amount).ok = true →
      amount.toInt + txFee.toInt ≤ exactSum (unspentAmounts set sender)) := by
  have owned : ∀ value ∈ ownedAmounts set.entries sender, 0 ≤ value.toInt := by
    intro value member
    simp only [ownedAmounts, List.mem_map, List.mem_filter] at member
    obtain ⟨entry, ⟨inside, _⟩, rfl⟩ := member
    exact nonneg entry inside
  obtain ⟨taken, _, sum, sameOverflow, _⟩ := selectInputs_spec sender (amount + txFee) {}
    (Nat.zero_le _) (Int.le_refl 0) owned
    (by simpa [← unspentAmounts_eq] using total)
  have below := exactSum_le_of_sublist (List.take_sublist taken _) owned
  have needed := toInt_add_of_fits fits
  have value := Int32.lt_iff_toInt_lt.mp positive
  have one : (txFee : Int32).toInt = 1 := rfl
  simp only [Int32.toInt_zero, Int.zero_add] at sum value
  rw [← sum, ← unspentAmounts_eq] at below
  simp only [utxoTransfer, fits, sameOverflow, Bool.false_or]
  split
  · exact ⟨rfl, by simp⟩
  next covered =>
    have enough := Int32.le_iff_toInt_le.mp (Int32.not_lt.mp covered)
    rw [needed] at enough
    have change : (decide (amount + txFee <
        (selectInputs sender (amount + txFee) set.entries {}).selectedTotal) &&
        subOverflows (selectInputs sender (amount + txFee) set.entries {}).selectedTotal
          (amount + txFee)) = false := by
      rw [Bool.and_eq_false_imp]
      intro _
      apply subOverflows_eq_false_iff.mpr
      obtain ⟨low, high⟩ := total
      rw [needed]
      constructor <;> omega
    rw [change]
    -- the remaining exits differ in the flag they return
    split
    · exact ⟨rfl, by simp⟩
    · split
      · exact ⟨rfl, by simp⟩
      · exact ⟨rfl, fun _ => Int.le_trans enough below⟩

/-! ### Accounts -/

/-- The rows of two different ids are different, unless the sender's has just been added
under a shortened id. -/
private theorem rows_ne {ledger first found : AccountLedger} {sender recipient : List Char}
    {i j : Nat} (different : sender ≠ recipient)
    (senderRow : findOrCreateAccount ledger sender = (first, some i))
    (recipientRow : findOrCreateAccount first recipient = (found, some j))
    (owns : ledger.balanceOf sender ≠ 0) : i ≠ j := by
  rcases findOrCreateAccount_some senderRow with ⟨senderFound, rfl⟩ | ⟨absent, _, _⟩
  · rcases findOrCreateAccount_some recipientRow with ⟨recipientFound, rfl⟩ | ⟨_, _, rfl⟩
    · rintro rfl
      exact different
        (Option.some_inj.mp ((getElem?_keys senderFound).symm.trans (getElem?_keys recipientFound)))
    · exact Nat.ne_of_lt (Table.position_lt Account.key senderFound)
  -- a sender without a row owns nothing
  · simp [AccountLedger.balanceOf, find_eq_none_of_position absent] at owns

private theorem accountTransfer_safe {ledger : AccountLedger} {sender recipient : List Char}
    {amount : Int32} (nonce : Int32) (positive : 0 < amount) (different : sender ≠ recipient)
    (nonneg : ∀ balance ∈ ledger.balances, 0 ≤ balance.toInt)
    (total : InInt (exactSum ledger.balances)) (fits : addOverflows amount txFee = false) :
    accountAmountsOverflow ledger sender recipient amount nonce = false ∧
    ((accountTransfer ledger sender recipient amount nonce).ok = true →
      amount.toInt + txFee.toInt ≤ (ledger.balanceOf sender).toInt) := by
  unfold accountAmountsOverflow
  rcases accountTransfer_cases ledger sender recipient amount nonce with
    ⟨_, refused⟩ | ⟨accepted, i, j, senderRow, recipientRow, _, _, posted⟩
  · simp [refused, fits]
  obtain ⟨inside, same⟩ := row_lookups senderRow recipient
  have inside' := findOrCreateAccount_lt recipientRow
  have balance :
      ((lookups ledger [sender, recipient]).row i).balance = ledger.balanceOf sender := by
    rw [same]
    exact read_row_findOrCreateAccount Account.balance (fun _ => rfl) senderRow
  have value := Int32.lt_iff_toInt_lt.mp positive
  have one : (txFee : Int32).toInt = 1 := rfl
  rw [Int32.toInt_zero] at value
  have enough : amount.toInt + txFee.toInt ≤ (ledger.balanceOf sender).toInt := by
    rw [← toInt_add_of_fits fits]
    exact Int32.le_iff_toInt_le.mp accepted.2.2.2
  have owns : ledger.balanceOf sender ≠ 0 := by
    intro nothing
    rw [nothing, Int32.toInt_zero] at enough
    omega
  have apart := rows_ne different senderRow recipientRow owns
  -- both balances are part of the total, which the lookups do not change
  have sum := add_le_exactSum (nonneg_lookups [sender, recipient] nonneg)
    (getElem?_balances inside) (getElem?_balances inside') apart
  rw [exactSum_lookups, balance] at sum
  have held := nonneg_lookups [sender, recipient] nonneg _
    (List.mem_of_getElem? (getElem?_balances inside'))
  obtain ⟨low, high⟩ := total
  have debit : subOverflows (ledger.balanceOf sender) (amount + txFee) = false := by
    apply subOverflows_eq_false_iff.mpr
    rw [toInt_add_of_fits fits]
    constructor <;> omega
  have credit :
      addOverflows ((lookups ledger [sender, recipient]).row j).balance amount = false := by
    apply addOverflows_eq_false_iff.mpr
    constructor <;> omega
  have updates : balancesOverflow (lookups ledger [sender, recipient]) i j amount = false := by
    rw [balancesOverflow, balance_debitSender amount inside', if_neg apart, balance, debit, credit]
    rfl
  simp [posted, senderRow, recipientRow, fits, updates, enough]

/-! ### Transfers -/

/-- With holdings that are not negative and totals that fit, a transfer between two different
ids is safe exactly if its amount is not the largest `int`, or no row can be had for the
sender. -/
theorem safe_transfer_iff (env : Env) (ledger : Ledger) (sender recipient : List Char)
    (amount : Int32) (positive : 0 < amount) (different : sender ≠ recipient)
    (nonneg : ledger.HoldingsNonneg) (totals : ledger.TotalsInRange) :
    SafeTransfer env ledger sender recipient amount ↔
      amount.toInt < 2147483647 ∨ (ledger.model = .account ∧ ¬ledger.HasRoomFor sender) := by
  rw [← fits_fee_iff positive, SafeTransfer, ledgerTransfer, if_neg (Int32.not_le.mpr positive),
    if_neg different]
  cases model : ledger.model with
  | utxo =>
    have nonneg := nonneg.1 model
    have totals := totals.1 model
    have balance : (ledgerBalance ledger sender).toInt =
        exactSum (unspentAmounts ledger.utxoSet sender) := by
      simp only [ledgerBalance, model, utxoBalance_eq]
      rw [← ofInt_exactSum, toInt_ofInt_of_inInt (totals sender)]
    simp only [transferAmountsOverflow, model, Ledger.onUtxos, balance, reduceCtorEq, false_and,
      or_false]
    constructor
    · intro safe
      exact fits_of_utxoTransfer safe.1
    · intro fits
      exact utxoTransfer_safe env recipient positive nonneg (totals sender) fits
  | account =>
    have nonneg : ∀ balance ∈ ledger.accountLedger.balances, 0 ≤ balance.toInt :=
      List.forall_mem_map.mpr (nonneg.2 model)
    have totals := totals.2 model
    simp only [transferAmountsOverflow, model, Ledger.onAccounts, ledgerBalance,
      hasRoomFor_iff model, true_and]
    cases result : findOrCreateAccount ledger.accountLedger sender with
    | mk accounts row =>
      cases row with
      | none => simp
      | some i =>
        -- the row of the sender is looked up once before, which changes no holdings
        have looked : accounts = lookups ledger.accountLedger [sender] := by
          simp [lookups, result]
        have balance : accounts.balanceOf sender = ledger.accountLedger.balanceOf sender := by
          have same := balanceOf_findOrCreateAccount ledger.accountLedger sender sender
          rwa [result] at same
        have nonneg' := nonneg_lookups [sender] nonneg
        have total' := (exactSum_lookups ledger.accountLedger [sender]).symm ▸ totals
        rw [← looked] at nonneg' total'
        simp only [Option.isSome_some, not_true_eq_false, or_false]
        constructor
        · rintro ⟨inRange, _⟩
          exact (Bool.or_eq_false_iff.mp inRange).1
        · intro fits
          rw [← balance]
          exact accountTransfer_safe _ positive different nonneg' total' fits

/-- A sender with 20 tokens and a transfer of 5. -/
theorem safe_transfer_iff_sample :
    let ledger := (ledgerCreditMiner Sample.env (ledgerInit .account Sample.registry).2
      "ALU001".toList 20).state
    SafeTransfer Sample.env ledger "ALU001".toList "ALU002".toList 5 ↔
      (5 : Int32).toInt < 2147483647 ∨
        (ledger.model = .account ∧ ¬ledger.HasRoomFor "ALU001".toList) :=
  safe_transfer_iff Sample.env _ _ _ 5 (by decide) (by decide)
    (by unfold Ledger.HoldingsNonneg; decide +kernel)
    ⟨fun utxo => absurd utxo (by decide +kernel), by decide +kernel⟩

/-- A sender who owns nothing pays the largest `int`. -/
theorem largest_int_accepted_unfunded :
    let ledger := (ledgerInit .utxo Sample.registry).2
    let result := ledgerTransfer Sample.env ledger "ALU001".toList "ALU002".toList 2147483647
    ledger.HoldingsNonneg ∧ ledger.TotalsInRange ∧ result.ok = true ∧
    (ledgerBalance ledger "ALU001".toList).toInt = 0 ∧
    (ledgerBalance result.state "ALU002".toList).toInt = 2147483647 ∧
    ¬SafeTransfer Sample.env ledger "ALU001".toList "ALU002".toList 2147483647 := by
  refine ⟨⟨by decide +kernel, by decide +kernel⟩, ⟨?_, by decide +kernel⟩, by decide +kernel,
    by decide +kernel, by decide +kernel, ?_⟩
  · intro _ owner
    exact (by decide : InInt (exactSum []))
  · rintro ⟨inRange, _⟩
    revert inRange
    decide +kernel

end Attendance
