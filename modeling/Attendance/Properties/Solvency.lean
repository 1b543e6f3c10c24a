import Attendance.Payouts
import Attendance.Sample

/-!
# Who can be overdrawn

`ledger_transfer` refuses amounts that are not positive, `ledger_transfer_with_nonce`
does not. A negative amount takes tokens from the recipient, and nothing checks that
the recipient has them. Without such a transfer, and without overflow, no balance is
ever negative.
-/
namespace Attendance

open CText MachineInt Calls

/-- A negative amount is taken from a recipient that has it. An account that sends it to
itself loses the fee. -/
def LedgerOp.Covered (ledger : Ledger) : LedgerOp → Prop
  | .transferNonce sender recipient amount nonce =>
    let found := lookups ledger.accountLedger [sender, recipient]
    ledger.model = .account → amount < 0 →
    Table.position Account.key sender found.accounts ≠ none →
    Table.position Account.key recipient found.accounts ≠ none →
    nonce = found.nonceOf sender →
    if sender = recipient then 0 < (ledgerBalance ledger sender).toInt
    else 0 ≤ (ledgerBalance ledger recipient).toInt + amount.toInt
  | _ => True

instance (ledger : Ledger) : (op : LedgerOp) → Decidable (op.Covered ledger)
  | .transferNonce _ _ _ _ => by
    unfold LedgerOp.Covered
    infer_instance
  | .confirm _ | .creditMiner _ _ | .transfer _ _ _ => isTrue trivial

/-- The command overflows no `int`, and a negative transfer is covered. -/
def Sound (env : Env) (registry : StudentRegistry) (session : Session) (command : Command) : Prop :=
  (execute env registry session command).overflow = false ∧
    match command with
    | .transferNonce sender recipient amount nonce =>
      (LedgerOp.transferNonce sender.text recipient.text amount nonce).Covered session.ledger
    | _ => True

instance (env : Env) (registry : StudentRegistry) (session : Session) (command : Command) :
    Decidable (Sound env registry session command) := by
  unfold Sound
  cases command <;> infer_instance

/-- No balance and no amount in the ledger is negative. -/
structure Solvent (ledger : Ledger) : Prop where
  balances : ∀ balance ∈ ledger.accountLedger.balances, 0 ≤ balance.toInt
  amounts : ∀ entry ∈ ledger.utxoSet.entries, 0 ≤ entry.amount.toInt
  identified : ∀ entry ∈ ledger.utxoSet.entries, entry.Identified

private theorem nonneg_modify {xs : List Int32} {i : Nat} {x : Int32} {f : Int32 → Int32}
    (nonneg : ∀ y ∈ xs, 0 ≤ y.toInt) (there : xs[i]? = some x) (here : 0 ≤ (f x).toInt) :
    ∀ y ∈ xs.modify i f, 0 ≤ y.toInt := by
  intro y member
  rcases Table.mem_modify member with old | ⟨x', there', rfl⟩
  · exact nonneg y old
  · obtain rfl : x = x' := Option.some_inj.mp (there.symm.trans there')
    exact here

/-- A transfer leaves no row negative if it leaves the recipient's row so. -/
private theorem nonneg_postTransfer {ledger : AccountLedger} {i j : Nat}
    (sender recipient : List Char) {amount : Int32} (nonce : Int32)
    (nonneg : ∀ balance ∈ ledger.balances, 0 ≤ balance.toInt)
    (inside : i < ledger.accounts.length) (inside' : j < ledger.accounts.length)
    (covered : amount + txFee ≤ (ledger.row i).balance)
    (fits : addOverflows amount txFee = false) (fits' : postOverflows ledger i j amount = false)
    (left : amount < 0 → if i = j then 0 < (ledger.row i).balance.toInt
      else 0 ≤ (ledger.row j).balance.toInt + amount.toInt) :
    ∀ balance ∈ (postTransfer ledger i j sender recipient amount nonce).balances,
      0 ≤ balance.toInt := by
  simp only [postOverflows, Bool.or_eq_false_iff] at fits'
  obtain ⟨⟨lowers, raises⟩, _⟩ := fits'
  have lowered : ((ledger.row i).balance - (amount + txFee)).toInt =
      (ledger.row i).balance.toInt - amount.toInt - 1 := by
    rw [toInt_sub_of_fits lowers, toInt_add_of_fits fits]
    have one : (txFee : Int32).toInt = 1 := rfl
    omega
  -- the sender has the amount and the fee
  have enough : amount.toInt + 1 ≤ (ledger.row i).balance.toInt := by
    have value := Int32.le_iff_toInt_le.mp covered
    rwa [toInt_add_of_fits fits] at value
  have debited : ∀ balance ∈ (debitSender ledger i amount).balances, 0 ≤ balance.toInt := by
    rw [balances_debitSender]
    exact nonneg_modify nonneg (getElem?_balances inside) (by rw [lowered]; omega)
  have inside'' : j < (debitSender ledger i amount).accounts.length := by
    rwa [length_debitSender]
  have recipientRow := getElem?_balances inside''
  rw [balances_postTransfer]
  apply nonneg_modify debited recipientRow
  have held := debited _ (List.mem_of_getElem? recipientRow)
  rw [toInt_add_of_fits raises]
  -- only a negative amount can lower the recipient's balance
  by_cases negative : amount < 0
  · have rest := left negative
    rw [balance_debitSender amount inside']
    by_cases same : i = j
    · subst same
      rw [if_pos rfl] at rest ⊢
      rw [lowered]
      omega
    · rwa [if_neg same] at rest ⊢
  · have value := Int32.le_iff_toInt_le.mp (Int32.not_lt.mp negative)
    rw [Int32.toInt_zero] at value
    omega

/-- A covered negative amount leaves the recipient's row at zero or more. -/
private theorem left_of_covered {ledger : Ledger} {op : LedgerOp} {sender recipient : List Char}
    {amount nonce : Int32} {i j : Nat} (model : ledger.model = .account)
    (sends : op.Sends sender recipient amount nonce) (covered : op.Covered ledger)
    (senderRow : Table.position Account.key sender
      (lookups ledger.accountLedger op.ids).accounts = some i)
    (recipientRow : Table.position Account.key recipient
      (lookups ledger.accountLedger op.ids).accounts = some j)
    (current : nonce = ((lookups ledger.accountLedger op.ids).row i).nonce)
    (negative : amount < 0) :
    if i = j then 0 < ((lookups ledger.accountLedger op.ids).row i).balance.toInt
    else 0 ≤ ((lookups ledger.accountLedger op.ids).row j).balance.toInt + amount.toInt := by
  -- `ledger_transfer` has checked the sign of the amount itself
  rcases sends with ⟨_, positive, _⟩ | rfl
  · exact absurd (Int32.lt_trans positive negative) Int32.lt_irrefl
  · have balance (id : List Char) {k : Nat} (row : Table.position Account.key id
        (lookups ledger.accountLedger [sender, recipient]).accounts = some k) :
        ledgerBalance ledger id =
          ((lookups ledger.accountLedger [sender, recipient]).row k).balance := by
      have same : (lookups ledger.accountLedger [sender, recipient]).balanceOf id =
          ledger.accountLedger.balanceOf id :=
        lookups_keeps (fun table => table.balanceOf id = ledger.accountLedger.balanceOf id)
          (fun table other _ kept => (balanceOf_findOrCreateAccount table other id).trans kept) rfl
      rw [AccountLedger.balanceOf, row_eq_of_position row] at same
      simp only [ledgerBalance, model]
      exact same.symm
    simp only [LedgerOp.ids] at *
    have found := row_eq_of_position senderRow
    have left := covered model negative (by simp [senderRow]) (by simp [recipientRow])
      (by rw [AccountLedger.nonceOf, found]; exact current)
    rw [balance sender senderRow, balance recipient recipientRow] at left
    -- both ids fit into a row, so that one row stands for one id
    have same_iff : sender = recipient ↔ i = j := by
      constructor
      · rintro rfl
        exact Option.some_inj.mp (senderRow.symm.trans recipientRow)
      · rintro rfl
        exact Option.some_inj.mp ((getElem?_keys senderRow).symm.trans (getElem?_keys recipientRow))
    simpa only [same_iff] using left

/-- A call that stays in range and is covered keeps the ledger solvent. -/
private theorem solvent_step (env : Env) {ledger : Ledger} (op : LedgerOp)
    (solvent : Solvent ledger) (short : ¬op.IsCredit → ∀ id ∈ op.ids, id.length < studentIdLen)
    (inRange : InRange env ledger op) (covered : op.Covered ledger) :
    Solvent (ledgerStep env ledger op) := by
  have identified := identified_ledgerStep env op solvent.identified inRange
  have step := opStep env op (fun _ => ⟨solvent.identified, inRange⟩)
  rw [InRange] at inRange
  rw [ledgerStep] at identified ⊢
  generalize op.call env ledger = outcome at *
  cases step with
  | idle => exact solvent
  -- a row that is added starts at zero
  | lookedUp => exact ⟨nonneg_lookups _ solvent.balances, solvent.amounts, identified⟩
  | @credited owner amount accounts i f model _ row credits _ _ _ nonneg =>
    refine ⟨?_, solvent.amounts, identified⟩
    have kept := nonneg_lookups [owner] solvent.balances
    simp only [lookups, List.foldl_cons, List.foldl_nil, row] at kept
    have there := getElem?_balances (findOrCreateAccount_lt row)
    have held := kept _ (List.mem_of_getElem? there)
    have value := Int32.le_iff_toInt_le.mp nonneg
    rw [balances_modifyRow accounts i (g := (· + amount)) credits.balance]
    apply nonneg_modify kept there
    rw [toInt_add_of_fits inRange]
    rw [Int32.toInt_zero] at value
    omega
  | @added output entry longer _ _ made appended _ _ _ nonneg =>
    refine ⟨solvent.balances, ?_, identified⟩
    rw [appended, List.forall_mem_append]
    exact ⟨solvent.amounts, by simpa [made, outputEntry] using Int32.le_iff_toInt_le.mp nonneg⟩
  | @posted sender recipient amount nonce found i j model sends looked inside inside' senderRow
      recipientRow current enough =>
    refine ⟨?_, solvent.amounts, identified⟩
    simp only [Bool.or_eq_false_iff] at inRange
    have kept : ∀ balance ∈ found.balances, 0 ≤ balance.toInt :=
      looked ▸ nonneg_lookups op.ids solvent.balances
    have known := short sends.not_isCredit
    have members : sender ∈ op.ids ∧ recipient ∈ op.ids := by
      rcases sends with ⟨rfl, _⟩ | rfl <;> simp [LedgerOp.ids]
    subst looked
    exact nonneg_postTransfer sender recipient nonce kept inside inside' enough inRange.1
      inRange.2 (left_of_covered model sends covered (senderRow (known _ members.1))
        (recipientRow (known _ members.2)) current)
  | @refused set _ _ spent =>
    exact ⟨solvent.balances, spent.forall_mem (fun _ => id) solvent.amounts, identified⟩

theorem solvent_ledgerInit (model : LedgerModel) (registry : StudentRegistry) :
    Solvent (ledgerInit model registry).2 := by
  obtain ⟨ids, _, accounts⟩ := accountLedger_ledgerInit model registry
  refine ⟨?_, by simp [entries_ledgerInit], by simp [entries_ledgerInit]⟩
  rw [accounts]
  exact nonneg_lookups ids (by simp [AccountLedger.balances, AccountLedger.empty])

/-- In a solvent ledger no balance that can be added up is negative. -/
theorem Solvent.ledgerBalance {ledger : Ledger} (solvent : Solvent ledger)
    {studentId : List Char} (inRange : ledger.BalanceInRange studentId) :
    0 ≤ (ledgerBalance ledger studentId).toInt := by
  rw [toInt_ledgerBalance inRange]
  cases model : ledger.model with
  | utxo =>
    simp only [Ledger.exactBalance, model]
    apply exactSum_nonneg
    intro value member
    simp only [unspentAmounts, List.mem_map, List.mem_filter] at member
    obtain ⟨entry, ⟨there, _⟩, rfl⟩ := member
    exact solvent.amounts entry there
  | account =>
    simp only [Ledger.exactBalance, model, AccountLedger.balanceOf, AccountLedger.find]
    cases found : Table.lookup Account.key studentId ledger.accountLedger.accounts with
    | none => decide
    | some account =>
      exact solvent.balances _ (List.mem_map_of_mem (List.mem_of_find?_eq_some found))

theorem solvent_sessionStep (env : Env) (registry : StudentRegistry) {session : Session}
    {command : Command} (solvent : Solvent session.ledger)
    (sound : Sound env registry session command) :
    Solvent (sessionStep env registry session command).ledger := by
  obtain ⟨inRange, covered⟩ := sound
  cases mining : command.miningCall with
  | some call =>
    rw [execute_of_miningCall env registry session mining] at inRange
    rw [sessionStep_of_miningCall env registry session mining]
    -- mining only credits, and a credit is never negative
    refine (creditRun_mine env call session.toMineState session.difficulty).keeps_inRange inRange
      Solvent (fun ledger op credit inRange solvent => ?_) solvent
    refine solvent_step env op solvent (fun transfer => absurd credit transfer) inRange ?_
    cases op with
    | confirm | creditMiner => trivial
    | transfer | transferNonce => exact absurd credit id
  | none =>
    cases command with
    | mineSolo | minePool | mineCloud => cases mining
    | mark | difficulty | tamper => exact solvent
    | model argument => exact solvent_ledgerInit _ registry
    | transfer sender recipient amount =>
      simp only [sessionStep, execute] at inRange ⊢
      split at inRange
      next unknown => rwa [if_pos unknown]
      next known =>
        rw [if_neg known]
        exact solvent_step env (.transfer sender.text recipient.text amount) solvent
          (fun _ => by simp [LedgerOp.ids, sender.fits, recipient.fits]) inRange trivial
    | transferNonce sender recipient amount nonce =>
      exact solvent_step env (.transferNonce sender.text recipient.text amount nonce) solvent
        (fun _ => by simp [LedgerOp.ids, sender.fits, recipient.fits]) inRange covered

/-- In every run whose commands are sound, in every state on the way, no balance that can
be added up is negative. -/
theorem no_one_overdrawn (env : Env) (registry : StudentRegistry) (model : LedgerModel)
    (difficulty : Int32) (session : Session)
    (started : startFresh env registry model difficulty = some session) (commands : List Command)
    (sound : Runs.Guarded (sessionStep env registry) (Sound env registry) session commands) :
    Runs.Throughout (sessionStep env registry) (fun session => ∀ studentId,
      session.ledger.BalanceInRange studentId →
      0 ≤ (ledgerBalance session.ledger studentId).toInt) session commands := by
  intro pre cut studentId inRange
  have initial : Solvent session.ledger := by
    rw [(startFresh_some started).ledger]
    exact solvent_ledgerInit model registry
  -- what holds after any part of the run holds throughout
  have solvent := Runs.guarded_invariant (sessionStep env registry)
    (fun session => Solvent session.ledger)
    (fun session command solvent sound => solvent_sessionStep env registry solvent sound)
    initial (sound.of_prefix cut)
  exact solvent.ledgerBalance inRange

/-- A transfer of a negative amount that its recipient has, and one to oneself. -/
theorem no_one_overdrawn_sample :
    Runs.Throughout (sessionStep Sample.env Sample.registry) (fun session => ∀ studentId,
      session.ledger.BalanceInRange studentId →
      0 ≤ (ledgerBalance session.ledger studentId).toInt) (Sample.start .account)
      [.mark "ALU002".toList "PRESENT".toList, .mineSolo,
        .transferNonce (.strncpy "ALU001".toList) (.strncpy "ALU002".toList) (-5) 0,
        .transferNonce (.strncpy "ALU001".toList) (.strncpy "ALU001".toList) (-2) 1] :=
  no_one_overdrawn Sample.env Sample.registry .account 1 (Sample.start .account)
    (Sample.startFresh_eq .account) _ (by decide +kernel)

/-- One `transfer_nonce` with a negative amount overdraws its recipient. -/
theorem overdrawn_by_negative_amount :
    let commands := [.transferNonce (.strncpy "ALU001".toList) (.strncpy "ALU002".toList) (-5) 0]
    let after :=
      Runs.final (sessionStep Sample.env Sample.registry) (Sample.start .account) commands
    startFresh Sample.env Sample.registry .account 1 = some (Sample.start .account) ∧
    (ledgerBalance after.ledger "ALU002".toList).toInt = -5 :=
  ⟨Sample.startFresh_eq .account, by decide +kernel⟩

end Attendance
