import Attendance.Ledger.Operations
import Attendance.Sample
import Mathlib.Tactic.Ring

/-!
# The token supply

Tokens are created by the credits that succeed and destroyed by the fees of the
transfers that succeed. Nothing else changes the supply.
-/
namespace Attendance

open CText MachineInt Calls

/-- All balances, or all unspent amounts, of the active model. -/
def Ledger.supply (ledger : Ledger) : Int :=
  match ledger.model with
  | .utxo => exactSum ((ledger.utxoSet.entries.filter (fun entry => !entry.spent)).map UTXO.amount)
  | .account => exactSum ledger.accountLedger.balances

/-- The amount of a credit call that returns true. -/
def creditedAmounts (env : Env) (ledger : Ledger) (op : LedgerOp) : List Int :=
  if op.IsCredit ∧ (op.call env ledger).ok = true then [op.credited env] else []

/-- A transfer call that returns true. -/
def acceptedTransfers (env : Env) (ledger : Ledger) (op : LedgerOp) : List LedgerOp :=
  if ¬op.IsCredit ∧ (op.call env ledger).ok = true then [op] else []

private theorem exactSum_modify {xs : List Int32} {i : Nat} {x : Int32} (f : Int32 → Int32)
    (there : xs[i]? = some x) : exactSum (xs.modify i f) = exactSum xs - x.toInt + (f x).toInt :=
  Table.sum_map_modify f Int32.toInt there

private theorem exactSum_credited {ledger : AccountLedger} {i : Nat} {f : Account → Account}
    {amount : Int32} (inside : i < ledger.accounts.length) (credits : Credits f amount)
    (fits : addOverflows (ledger.row i).balance amount = false) :
    exactSum (ledger.modifyRow i f).balances = exactSum ledger.balances + amount.toInt := by
  rw [balances_modifyRow ledger i (g := (· + amount)) credits.balance,
    exactSum_modify _ (getElem?_balances inside), toInt_add_of_fits fits]
  omega

/-- Between its two assignments a transfer destroys the fee. -/
private theorem exactSum_postTransfer {ledger : AccountLedger} {i j : Nat}
    (sender recipient : List Char) {amount : Int32} (nonce : Int32)
    (inside : i < ledger.accounts.length) (inside' : j < ledger.accounts.length)
    (fits : addOverflows amount txFee = false) (fits' : postOverflows ledger i j amount = false) :
    exactSum (postTransfer ledger i j sender recipient amount nonce).balances =
      exactSum ledger.balances - txFee.toInt := by
  simp only [postOverflows, Bool.or_eq_false_iff] at fits'
  obtain ⟨⟨debit, credit⟩, _⟩ := fits'
  have debited : exactSum (debitSender ledger i amount).balances =
      exactSum ledger.balances - (amount.toInt + txFee.toInt) := by
    rw [balances_debitSender, exactSum_modify _ (getElem?_balances inside),
      toInt_sub_of_fits debit, toInt_add_of_fits fits]
    omega
  have inside'' : j < (debitSender ledger i amount).accounts.length := by
    rwa [length_debitSender]
  have recipientRow := getElem?_balances inside''
  rw [balances_postTransfer, exactSum_modify _ recipientRow, toInt_add_of_fits credit, debited]
  omega

private theorem exactSum_spentWorthless {before after : List UTXO}
    (spent : SpentWorthless before after) :
    exactSum ((after.filter (fun entry => !entry.spent)).map UTXO.amount) =
      exactSum ((before.filter (fun entry => !entry.spent)).map UTXO.amount) := by
  induction spent with
  | nil => rfl
  | @cons old new _ _ head _ ih =>
    rcases head with rfl | ⟨worthless, rfl⟩
    · cases unspent : new.spent <;> simp [unspent, ih]
    · cases unspent : old.spent <;> simp [unspent, worthless, ih]

/-- One call adds what it credits and destroys one fee if it is a transfer. -/
private theorem supply_step (env : Env) {ledger : Ledger} (op : LedgerOp)
    (identified : ∀ entry ∈ ledger.utxoSet.entries, entry.Identified)
    (inRange : InRange env ledger op) :
    (ledgerStep env ledger op).supply = ledger.supply + (creditedAmounts env ledger op).sum -
      txFee.toInt * (acceptedTransfers env ledger op).length := by
  have step := opStep env op (fun _ => ⟨identified, inRange⟩)
  simp only [ledgerStep, creditedAmounts, acceptedTransfers, InRange] at *
  generalize op.call env ledger = outcome at *
  cases step with
  | @idle ok _ free =>
    -- a call that returns true and does nothing is a credit of nothing
    cases ok with
    | false => simp
    | true => simp [free rfl]
  | @lookedUp ids =>
    -- rows are added with a balance of zero
    cases model : ledger.model <;> simp [Ledger.supply, model, exactSum_lookups]
  | @credited owner amount accounts i f model _ row credits _ credit counted =>
    have same := exactSum_lookups ledger.accountLedger [owner]
    simp only [lookups, List.foldl_cons, List.foldl_nil, row] at same
    have raised := exactSum_credited (findOrCreateAccount_lt row) credits inRange
    simp [Ledger.supply, model, raised, same, credit, counted]
  | @added output entry longer model _ made appended _ credit counted =>
    simp [Ledger.supply, model, appended, made, outputEntry, credit, counted]
  | @posted sender recipient amount nonce found i j model sends looked inside inside' =>
    subst looked
    simp only [Bool.or_eq_false_iff] at inRange
    -- the fee is lost, also when both rows are one
    have lowered := exactSum_postTransfer sender recipient nonce inside inside' inRange.1 inRange.2
    simp [Ledger.supply, model, lowered, exactSum_lookups, sends.not_isCredit]
  | @refused set _ model spent =>
    simp [Ledger.supply, model, exactSum_spentWorthless spent]

private theorem supply_run (env : Env) {ledger : Ledger} (ops : List LedgerOp)
    (identified : ∀ entry ∈ ledger.utxoSet.entries, entry.Identified)
    (inRange : Runs.Guarded (ledgerStep env) (InRange env) ledger ops) :
    (Runs.final (ledgerStep env) ledger ops).supply = ledger.supply +
      (Runs.trace (ledgerStep env) (creditedAmounts env) ledger ops).sum -
      txFee.toInt * (Runs.trace (ledgerStep env) (acceptedTransfers env) ledger ops).length := by
  induction ops generalizing ledger with
  | nil => simp
  | cons op ops ih =>
    obtain ⟨here, rest⟩ := inRange
    have first := supply_step env op identified here
    have later := ih (identified_ledgerStep env op identified here) rest
    rw [Runs.final_cons, later, first]
    simp only [Runs.trace_cons, List.sum_append, List.length_append, Nat.cast_add]
    ring

private theorem supply_ledgerInit (model : LedgerModel) (registry : StudentRegistry) :
    (ledgerInit model registry).2.supply = 0 := by
  obtain ⟨ids, _, accounts⟩ := accountLedger_ledgerInit model registry
  cases model with
  | utxo => rfl
  | account =>
    simp only [Ledger.supply, model_ledgerInit, accounts, exactSum_lookups]
    rfl

/-- In every run of ledger calls from `ledger_init` in which no `int` operation
overflows, the supply is what was credited less the fees of the accepted transfers. -/
theorem supply_conserved (env : Env) (model : LedgerModel) (registry : StudentRegistry)
    (ops : List LedgerOp)
    (inRange : Runs.Guarded (ledgerStep env) (InRange env) (ledgerInit model registry).2 ops) :
    (Runs.final (ledgerStep env) (ledgerInit model registry).2 ops).supply =
      (Runs.trace (ledgerStep env) (creditedAmounts env) (ledgerInit model registry).2 ops).sum -
      txFee.toInt * (Runs.trace (ledgerStep env) (acceptedTransfers env)
        (ledgerInit model registry).2 ops).length := by
  have run := supply_run env ops (by simp [entries_ledgerInit]) inRange
  rwa [supply_ledgerInit, zero_add] at run

/-- Credits, a self-transfer of a negative amount, a wrong nonce and an unknown sender. -/
theorem supply_conserved_sample :
    let ops := [.creditMiner "ALU001".toList 20,
      .transferNonce "ALU001".toList "ALU001".toList (-5) 0,
      .transferNonce "ALU001".toList "ALU002".toList 3 7,
      .transfer "ALU001".toList "X".toList 4, .transfer "Y".toList "ALU002".toList 4]
    let start := (ledgerInit .account Sample.registry).2
    (Runs.final (ledgerStep Sample.env) start ops).supply =
      (Runs.trace (ledgerStep Sample.env) (creditedAmounts Sample.env) start ops).sum -
      txFee.toInt * (Runs.trace (ledgerStep Sample.env) (acceptedTransfers Sample.env)
        start ops).length :=
  supply_conserved Sample.env .account Sample.registry _
    (by simp only [Runs.guarded_cons, Runs.guarded_nil, InRange, and_true]; decide +kernel)

end Attendance
