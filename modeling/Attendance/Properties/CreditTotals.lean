import Attendance.Ledger.Operations
import Attendance.Sample
import Mathlib.Data.List.Dedup

/-!
# What credits add up to

The UTXO model keeps every credit as an entry and adds them up when it is asked for a
balance, the account model adds each of them to a row. Both give an id the total of what
was credited to it, so that the two models agree and the order of the credits does not
matter.
-/
namespace Attendance

open CText MachineInt Calls

/-- A block with the reward of its status, or a positive amount for a miner with a short id. -/
def LedgerOp.IsPayout : LedgerOp → Prop
  | .confirm block => block.tokenReward = tokenRewardForStatus block.status.text
  | .creditMiner minerId amount => minerId.length < studentIdLen ∧ 0 < amount
  | .transfer _ _ _ | .transferNonce _ _ _ _ => False

instance : DecidablePred LedgerOp.IsPayout
  | .confirm _ => inferInstanceAs (Decidable (_ = _))
  | .creditMiner _ _ => inferInstanceAs (Decidable (_ ∧ _))
  | .transfer _ _ _ | .transferNonce _ _ _ _ => isFalse id

/-- The id a call pays; a block without a reward pays nobody. -/
def LedgerOp.payee : LedgerOp → Option (List Char)
  | .confirm block => if 0 < block.tokenReward then some block.studentId.text else none
  | .creditMiner minerId _ => some minerId
  | .transfer _ _ _ | .transferNonce _ _ _ _ => none

/-- The reward less the fee, or the amount for the miner. -/
def LedgerOp.payment : LedgerOp → Int
  | .confirm block => block.tokenReward.toInt - txFee.toInt
  | .creditMiner _ amount => amount.toInt
  | .transfer _ _ _ | .transferNonce _ _ _ _ => 0

def LedgerOp.paidTo (id : List Char) (op : LedgerOp) : Int :=
  if op.payee = some id then op.payment else 0

/-- What all calls together pay to an id. -/
def totalPaid (ops : List LedgerOp) (id : List Char) : Int := (ops.map (LedgerOp.paidTo id)).sum

def payees (ops : List LedgerOp) : List (List Char) := ops.filterMap LedgerOp.payee

/-- There is an entry for every payment, and an account for every student and payee. -/
structure WithinCapacity (registry : StudentRegistry) (ops : List LedgerOp) : Prop where
  entries : (payees ops).length ≤ maxUtxos
  accounts : (registry.ids ++ payees ops).dedup.length ≤ maxStudents

@[simp] theorem totalPaid_append (ops ops' : List LedgerOp) (id : List Char) :
    totalPaid (ops ++ ops') id = totalPaid ops id + totalPaid ops' id := by
  simp [totalPaid]

theorem totalPaid_singleton (op : LedgerOp) (id : List Char) :
    totalPaid [op] id = op.paidTo id := by
  simp [totalPaid]

theorem totalPaid_perm {ops ops' : List LedgerOp} (same : ops.Perm ops') (id : List Char) :
    totalPaid ops id = totalPaid ops' id :=
  (same.map (LedgerOp.paidTo id)).sum_eq

theorem WithinCapacity.perm {registry : StudentRegistry} {ops ops' : List LedgerOp}
    (capacity : WithinCapacity registry ops) (same : ops.Perm ops') :
    WithinCapacity registry ops' := by
  have payees_same : (payees ops).Perm (payees ops') := same.filterMap LedgerOp.payee
  constructor
  · rw [← payees_same.length_eq]
    exact capacity.entries
  · rw [← ((payees_same.append_left registry.ids).dedup).length_eq]
    exact capacity.accounts

private theorem LedgerOp.IsPayout.isCredit {op : LedgerOp} (payout : op.IsPayout) :
    op.IsCredit := by
  cases op with
  | confirm | creditMiner => trivial
  | transfer | transferNonce => exact absurd payout id

private theorem LedgerOp.IsPayout.ids_short {op : LedgerOp} (payout : op.IsPayout) :
    ∀ id ∈ op.ids, id.length < studentIdLen := by
  cases op with
  | confirm block => simpa [LedgerOp.ids] using block.studentId.fits
  | creditMiner => simpa [LedgerOp.ids] using payout.1
  | transfer | transferNonce => exact absurd payout id

private theorem LedgerOp.IsPayout.paidTo_nonneg {op : LedgerOp} (payout : op.IsPayout)
    (id : List Char) : 0 ≤ op.paidTo id := by
  unfold LedgerOp.paidTo
  split
  next paid =>
    cases op with
    | confirm block =>
      have positive : 0 < block.tokenReward := by
        by_contra nothing
        simp [LedgerOp.payee, nothing] at paid
      have value := Int32.lt_iff_toInt_lt.mp positive
      have one : (txFee : Int32).toInt = 1 := rfl
      rw [Int32.toInt_zero] at value
      simp only [LedgerOp.payment, one]
      omega
    | creditMiner minerId amount =>
      have value := Int32.lt_iff_toInt_lt.mp payout.2
      rw [Int32.toInt_zero] at value
      exact Int.le_of_lt value
    | transfer | transferNonce => exact absurd payout False.elim
  next => exact Int.le_refl 0

private theorem totalPaid_nonneg {ops : List LedgerOp} (payouts : ∀ op ∈ ops, op.IsPayout)
    (id : List Char) : 0 ≤ totalPaid ops id := by
  apply List.sum_nonneg
  intro value member
  obtain ⟨op, inside, rfl⟩ := List.mem_map.mp member
  exact (payouts op inside).paidTo_nonneg id

/-! ### One call -/

/-- With room for its payee, a payout in range returns true and pays. -/
private theorem payout_step (env : Env) {ledger : Ledger} {op : LedgerOp} (payout : op.IsPayout)
    (room : ∀ id, op.payee = some id → ledger.HasRoomFor id) (inRange : InRange env ledger op) :
    (op.call env ledger).ok = true ∧
    ∀ id, (ledgerStep env ledger op).exactBalance id = ledger.exactBalance id + op.paidTo id := by
  rw [InRange] at inRange
  simp only [ledgerStep, LedgerOp.paidTo]
  cases op with
  | confirm block =>
    by_cases positive : 0 < block.tokenReward
    · have outputs := outputs_createRewardTransaction env positive
      have owner : (LedgerOp.confirm block).payee = some block.studentId.text := if_pos positive
      rcases ledgerApplyConfirmedBlock_cases ledger positive outputs with
        ⟨_, ok, gains⟩ | ⟨full, _⟩
      · refine ⟨ok, fun id => ?_⟩
        have gained := gains inRange id
        have one : (txFee : Int32).toInt = 1 := rfl
        rw [toInt_tokenReward_sub_txFee positive] at gained
        simpa [owner, LedgerOp.call, LedgerOp.payment, one, eq_comm] using gained
      · exact absurd (room _ owner) full
    -- a block without a reward leaves the ledger alone
    · have idle : (LedgerOp.confirm block).call env ledger = ⟨true, ledger, false⟩ :=
        if_pos (Int32.not_lt.mp positive)
      simp [idle, LedgerOp.payee, positive]
  | creditMiner minerId amount =>
    have free := room minerId rfl
    refine ⟨(ok_ledgerCreditMiner_iff env payout.2).mpr free, fun id => ?_⟩
    have step := creditStep_ledgerCreditMiner env ledger minerId payout.2
    have gained := step.gains payout.1 free inRange id
    simpa [LedgerOp.call, LedgerOp.payee, LedgerOp.payment, eq_comm] using gained
  | transfer | transferNonce => exact absurd payout False.elim

/-- Who is paid is the one id the call looks up, and a payout to nobody does nothing. -/
private theorem payee_cases (env : Env) {op : LedgerOp} (payout : op.IsPayout) :
    (∃ id, op.payee = some id ∧ op.ids = [id]) ∨
    (op.payee = none ∧ ∀ ledger, op.call env ledger = ⟨true, ledger, false⟩) := by
  cases op with
  | confirm block =>
    by_cases positive : 0 < block.tokenReward
    · exact Or.inl ⟨block.studentId.text, if_pos positive, rfl⟩
    · exact Or.inr ⟨if_neg positive, fun ledger => if_pos (Int32.not_lt.mp positive)⟩
  | creditMiner minerId amount => exact Or.inl ⟨minerId, rfl, rfl⟩
  | transfer | transferNonce => exact absurd payout id

private theorem paidTo_eq_credited (env : Env) {op : LedgerOp} (payout : op.IsPayout)
    {id : List Char} (known : id ∈ op.ids) : op.paidTo id = op.credited env := by
  cases op with
  | confirm block =>
    obtain rfl : id = block.studentId.text := by simpa [LedgerOp.ids] using known
    by_cases positive : 0 < block.tokenReward
    · have one : (txFee : Int32).toInt = 1 := rfl
      simp [LedgerOp.paidTo, LedgerOp.payee, LedgerOp.payment, LedgerOp.credited, positive,
        outputs_createRewardTransaction env positive, toInt_tokenReward_sub_txFee positive, one]
    · simp [LedgerOp.paidTo, LedgerOp.payee, LedgerOp.credited, createRewardTransaction, positive,
        Int32.not_lt.mp positive]
  | creditMiner minerId amount =>
    obtain rfl : id = minerId := by simpa [LedgerOp.ids] using known
    simp [LedgerOp.paidTo, LedgerOp.payee, LedgerOp.payment, LedgerOp.credited]
  | transfer | transferNonce => exact absurd payout False.elim

/-- A payout stays in range when what its payee gets in the end does. -/
private theorem inRange_of_payout (env : Env) {ledger : Ledger} {op : LedgerOp}
    (payout : op.IsPayout)
    (fits : ∀ id, InInt (ledger.exactBalance id + op.paidTo id)) : InRange env ledger op := by
  rw [InRange]
  rcases credit_cases env ledger payout.isCredit with
    ⟨ok, _, result⟩ | ⟨source, owner, amount, fee, credits⟩
  · rw [result]
  · have step := credits.step
    generalize op.call env ledger = outcome at step ⊢
    cases step with
    -- a new entry is not added to anything
    | added | full => rfl
    | posted model row =>
      have total := fits owner
      have balance := read_row_findOrCreateAccount Account.balance (fun _ => rfl) row
      have gained : op.paidTo owner = amount.toInt := by
        rw [← credits.counted, paidTo_eq_credited env payout credits.known]
      apply addOverflows_eq_false_iff.mpr
      simpa only [Ledger.exactBalance, model, AccountLedger.balanceOf, ← balance, gained]
        using total

/-! ### Runs -/

/-- The ledger after the calls of a log. -/
structure Tallied (model : LedgerModel) (registry : StudentRegistry) (log : List LedgerOp)
    (ledger : Ledger) : Prop where
  active : ledger.model = model
  balances : ∀ id, ledger.exactBalance id = totalPaid log id
  entries : ledger.utxoSet.entries.length ≤ (payees log).length
  distinct : ledger.accountLedger.keys.Nodup
  known : ∀ key ∈ ledger.accountLedger.keys, key ∈ registry.ids ++ payees log

private theorem payees_concat (log : List LedgerOp) (op : LedgerOp) :
    payees (log ++ [op]) = payees log ++ op.payee.toList := by
  cases payee : op.payee <;> simp [payees, payee]

/-- Within the capacity there is room for the payee of the next call. -/
private theorem Tallied.hasRoomFor {model : LedgerModel}
    {registry : StudentRegistry} {log rest : List LedgerOp}
    {ledger : Ledger} {op : LedgerOp} (tallied : Tallied model registry log ledger)
    (capacity : WithinCapacity registry (log ++ op :: rest)) {id : List Char}
    (payee : op.payee = some id) : ledger.HasRoomFor id := by
  have all : payees (log ++ op :: rest) = payees log ++ id :: payees rest := by
    simp [payees, payee]
  cases model : ledger.model with
  | utxo =>
    have entries := capacity.entries
    rw [all, List.length_append, List.length_cons] at entries
    simp only [Ledger.HasRoomFor, model]
    exact Nat.lt_of_le_of_lt tallied.entries (by omega)
  | account =>
    simp only [Ledger.HasRoomFor, model]
    by_cases member : id ∈ ledger.accountLedger.keys
    · left
      obtain ⟨i, found⟩ := exists_position_of_mem_keys member
      simp [found]
    · right
      -- the ids in the table and this one are all different, and all counted
      have distinct : (id :: ledger.accountLedger.keys).Nodup :=
        List.nodup_cons.mpr ⟨member, tallied.distinct⟩
      have counted : id :: ledger.accountLedger.keys ⊆
          (registry.ids ++ payees (log ++ op :: rest)).dedup := by
        rw [all]
        intro key inside
        rw [List.mem_dedup]
        rcases List.mem_cons.mp inside with rfl | old
        · simp
        · rcases List.mem_append.mp (tallied.known key old) with student | paid
          · simp [student]
          · simp [paid]
      have few := (List.subperm_of_subset distinct counted).length_le
      rw [List.length_cons, length_keys] at few
      exact Nat.lt_of_succ_le (Nat.le_trans few capacity.accounts)

private theorem Tallied.step (env : Env) {model : LedgerModel}
    {registry : StudentRegistry} {log : List LedgerOp}
    {ledger : Ledger} {op : LedgerOp} (tallied : Tallied model registry log ledger)
    (payout : op.IsPayout) (room : ∀ id, op.payee = some id → ledger.HasRoomFor id)
    (inRange : InRange env ledger op) :
    Tallied model registry (log ++ [op]) (ledgerStep env ledger op) := by
  obtain ⟨_, pays⟩ := payout_step env payout room inRange
  have balances : ∀ id, (ledgerStep env ledger op).exactBalance id =
      totalPaid (log ++ [op]) id := by
    intro id
    rw [pays, tallied.balances, totalPaid_append, totalPaid_singleton]
  -- a call pays one id, or it is for a block without a reward and does nothing
  rcases payee_cases env payout with ⟨id, payee, ids⟩ | ⟨nobody, idle⟩
  · obtain ⟨active, entries, keys⟩ := ledgerStep_grows env ledger op payout.isCredit
    have more : payees (log ++ [op]) = payees log ++ [id] := by
      rw [payees_concat, payee, Option.toList_some]
    have known : ∀ key ∈ ledger.accountLedger.keys, key ∈ registry.ids ++ (payees log ++ [id]) := by
      intro key member
      rw [← List.append_assoc]
      exact List.mem_append_left _ (tallied.known key member)
    refine ⟨active.trans tallied.active, balances, ?_, ?_, ?_⟩
    · rw [more, List.length_append, List.length_singleton]
      exact Nat.le_trans entries (Nat.succ_le_succ tallied.entries)
    -- the call may add the row of the one it pays
    · rcases keys with same | ⟨other, member, absent, grown⟩
      · rw [same]
        exact tallied.distinct
      · rw [grown, CStr.text_strncpy (payout.ids_short other member), ← List.concat_eq_append]
        exact tallied.distinct.concat absent
    · rw [more]
      rcases keys with same | ⟨other, member, absent, grown⟩
      · rwa [same]
      · obtain rfl : other = id := by simpa [ids] using member
        rw [grown, CStr.text_strncpy (payout.ids_short other member), List.forall_mem_append]
        exact ⟨known, by simp⟩
  · have same : ledgerStep env ledger op = ledger := by rw [ledgerStep, idle]
    have more : payees (log ++ [op]) = payees log := by
      rw [payees_concat, nobody, Option.toList_none, List.append_nil]
    rw [same] at balances ⊢
    refine ⟨tallied.active, balances, ?_, tallied.distinct, ?_⟩ <;> rw [more]
    · exact tallied.entries
    · exact tallied.known

/-- A run of payouts within the capacity succeeds and tallies, if its totals fit or none of
its calls overflows. -/
private theorem tallied_run (env : Env) {model : LedgerModel}
    {registry : StudentRegistry} {log rest : List LedgerOp}
    {ledger : Ledger} (tallied : Tallied model registry log ledger)
    (payouts : ∀ op ∈ log ++ rest, op.IsPayout) (capacity : WithinCapacity registry (log ++ rest))
    (fits : (∀ id, InInt (totalPaid (log ++ rest) id)) ∨
      Runs.Guarded (ledgerStep env) (InRange env) ledger rest) :
    Runs.Guarded (ledgerStep env) (fun ledger op => (op.call env ledger).ok = true) ledger rest ∧
    Tallied model registry (log ++ rest) (Runs.final (ledgerStep env) ledger rest) := by
  induction rest generalizing log ledger with
  | nil => exact ⟨trivial, by simpa using tallied⟩
  | cons op rest ih =>
    have payout : op.IsPayout := payouts op (by simp)
    have room : ∀ id, op.payee = some id → ledger.HasRoomFor id :=
      fun id payee => tallied.hasRoomFor capacity payee
    have inRange : InRange env ledger op := by
      rcases fits with totals | guarded
      · apply inRange_of_payout env payout
        intro id
        -- between zero and the final total
        have before : 0 ≤ totalPaid log id :=
          totalPaid_nonneg (fun other member => payouts other (by simp [member])) id
        have later : 0 ≤ totalPaid rest id :=
          totalPaid_nonneg (fun other member => payouts other (by simp [member])) id
        have here := payout.paidTo_nonneg id
        obtain ⟨low, high⟩ := totals id
        rw [List.append_cons, totalPaid_append, totalPaid_append, totalPaid_singleton] at low high
        rw [tallied.balances]
        constructor <;> omega
      · exact guarded.1
    have next := tallied.step env payout room inRange
    rw [List.append_cons] at payouts capacity fits ⊢
    obtain ⟨all, last⟩ := ih next payouts capacity (fits.imp_right And.right)
    exact ⟨⟨(payout_step env payout room inRange).1, all⟩, last⟩

private theorem tallied_ledgerInit (model : LedgerModel) (registry : StudentRegistry) :
    Tallied model registry [] (ledgerInit model registry).2 := by
  obtain ⟨ids, known, accounts⟩ := accountLedger_ledgerInit model registry
  -- the rows at the start are those of the students, each once
  have rows : (lookups .empty ids).keys.Nodup ∧
      ∀ key ∈ (lookups .empty ids).keys, key ∈ registry.ids := by
    refine lookups_keeps (fun ledger : AccountLedger => ledger.keys.Nodup ∧
      ∀ key ∈ ledger.keys, key ∈ registry.ids) (fun ledger id member kept => ?_) ?_
    · have student := known id member
      rw [keys_findOrCreateAccount ledger (length_of_mem_ids student), Table.addKey]
      split
      · exact kept
      next fresh =>
        rw [List.forall_mem_append, ← List.concat_eq_append]
        exact ⟨kept.1.concat (not_or.mp fresh).1, kept.2, by simpa using student⟩
    · exact ⟨List.nodup_nil, by simp [AccountLedger.keys, AccountLedger.empty]⟩
  have nothing (id : List Char) : (lookups .empty ids).balanceOf id = 0 :=
    lookups_keeps (fun ledger => ledger.balanceOf id = 0)
      (fun ledger other _ kept => (balanceOf_findOrCreateAccount ledger other id).trans kept) rfl
  refine ⟨model_ledgerInit model registry, ?_, by simp [entries_ledgerInit], ?_, ?_⟩
  · intro id
    cases model with
    | utxo => rfl
    | account =>
      simp only [Ledger.exactBalance, model_ledgerInit, accounts, nothing]
      rfl
  · rw [accounts]
    exact rows.1
  · rw [accounts]
    simpa [payees] using rows.2

/-- Payouts within the capacity of both models, whose run in the account model overflows no
`int`, all return true, in either model and in any order, and every id has what they pay to
it in total. -/
theorem payouts_add_up (env : Env) (registry : StudentRegistry) (ops : List LedgerOp)
    (payouts : ∀ op ∈ ops, op.IsPayout) (capacity : WithinCapacity registry ops)
    (inRange : Runs.Guarded (ledgerStep env) (InRange env) (ledgerInit .account registry).2 ops)
    (model : LedgerModel) (ordered : List LedgerOp) (same : ordered.Perm ops) :
    Runs.Guarded (ledgerStep env) (fun ledger op => (op.call env ledger).ok = true)
      (ledgerInit model registry).2 ordered ∧
    ∀ id, (ledgerBalance (Runs.final (ledgerStep env) (ledgerInit model registry).2 ordered)
      id).toInt = totalPaid ops id := by
  -- the run that is known to stay in range bounds the totals
  have totals : ∀ id, InInt (totalPaid ops id) := by
    intro id
    obtain ⟨_, tallied⟩ := tallied_run env (tallied_ledgerInit .account registry)
      (by simpa using payouts) (by simpa using capacity) (Or.inr inRange)
    have balance := tallied.balances id
    rw [List.nil_append] at balance
    rw [← balance]
    exact balanceInRange_of_account tallied.active id
  have payouts' : ∀ op ∈ ordered, op.IsPayout := fun op member =>
    payouts op (same.mem_iff.mp member)
  obtain ⟨all, tallied⟩ := tallied_run env (tallied_ledgerInit model registry)
    (by simpa using payouts') (by simpa using capacity.perm same.symm)
    (Or.inl (fun id => by simpa [totalPaid_perm same id] using totals id))
  refine ⟨all, fun id => ?_⟩
  have balance := tallied.balances id
  rw [List.nil_append, totalPaid_perm same] at balance
  rw [toInt_ledgerBalance, balance]
  rw [Ledger.BalanceInRange, balance]
  exact totals id

/-- The blocks of a session with a student present, one late and one absent, and a miner who
is a student as well. -/
def samplePayouts : List LedgerOp :=
  (Runs.final (sessionStep Sample.env Sample.registry) (Sample.start .utxo)
    [.mark "ALU001".toList "PRESENT".toList, .mark "ALU002".toList "LATE".toList,
      .mark "ALU001".toList "ABSENT".toList, .mineSolo]).chain.blocks.tail.map .confirm ++
  [.creditMiner "ALU002".toList 20, .creditMiner "POOL1".toList 2]

theorem payouts_add_up_sample :
    Runs.Guarded (ledgerStep Sample.env) (fun ledger op => (op.call Sample.env ledger).ok = true)
      (ledgerInit .utxo Sample.registry).2 samplePayouts.reverse ∧
    ∀ id, (ledgerBalance (Runs.final (ledgerStep Sample.env) (ledgerInit .utxo Sample.registry).2
      samplePayouts.reverse) id).toInt = totalPaid samplePayouts id :=
  payouts_add_up Sample.env Sample.registry samplePayouts (by decide +kernel)
    ⟨by decide +kernel, by decide +kernel⟩ (by decide +kernel) .utxo _ (List.reverse_perm _)

end Attendance
