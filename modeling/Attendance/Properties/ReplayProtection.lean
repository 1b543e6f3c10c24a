import Attendance.Ledger.Operations
import Attendance.Sample
import Mathlib.Data.List.Nodup

/-!
# Replay protection in the account model

The nonce of an account counts the transfers it has sent, so that the nonces of its
transfers are 0, 1, 2 and so on, and no nonce is used twice.
-/
namespace Attendance

open CText MachineInt Calls

/-- The sender and the nonce of a transfer that returns true. `ledger_transfer` uses the
nonce it finds. -/
def sentTransfers (env : Env) (ledger : Ledger) (op : LedgerOp) : List (List Char × Int32) :=
  if (op.call env ledger).ok then
    match op with
    | .transfer sender _ _ => [(sender, ledger.accountLedger.nonceOf sender)]
    | .transferNonce sender _ _ nonce => [(sender, nonce)]
    | .confirm _ | .creditMiner _ _ => []
  else []

/-- How often an id has sent. -/
def timesSent (log : List (List Char × Int32)) (id : List Char) : Nat :=
  (log.map Prod.fst).count id

/-- The nonces of the table number the transfers of the log. -/
structure Numbered (log : List (List Char × Int32)) (ledger : AccountLedger) : Prop where
  distinct : ledger.keys.Nodup
  nonces : ledger.nonces = ledger.keys.map fun id => Int32.ofNat (timesSent log id)
  known : ∀ sent ∈ log, sent.1 ∈ ledger.keys
  used : ∀ sent ∈ log, ∃ earlier < timesSent log sent.1, sent.2 = Int32.ofNat earlier
  fresh : log.length ≤ 2 ^ 31 → log.Nodup

private theorem timesSent_le (log : List (List Char × Int32)) (id : List Char) :
    timesSent log id ≤ log.length := by
  rw [timesSent, ← List.length_map (f := Prod.fst)]
  exact List.count_le_length

private theorem timesSent_concat (log : List (List Char × Int32)) (id : List Char) (nonce : Int32)
    (other : List Char) :
    timesSent (log ++ [(id, nonce)]) other = timesSent log other + if other = id then 1 else 0 := by
  by_cases same : other = id
  · simp [timesSent, same]
  · simp [timesSent, same, Ne.symm same]

/-- A row is added for an id that has sent nothing. -/
private theorem Numbered.findOrCreateAccount {log : List (List Char × Int32)}
    {ledger : AccountLedger} (numbered : Numbered log ledger) {id : List Char}
    (short : id.length < studentIdLen) : Numbered log (findOrCreateAccount ledger id).1 := by
  apply findOrCreateAccount_keeps numbered
  intro longer absent rows
  have stored : (newAccount id).key = id := CStr.text_strncpy short
  have keys : longer.keys = ledger.keys ++ [id] := by
    simp [AccountLedger.keys, rows, stored]
  have nonces : longer.nonces = ledger.nonces ++ [0] := by
    simp [AccountLedger.nonces, rows, newAccount]
  have unknown : id ∉ ledger.keys := notMem_keys_of_position absent
  -- a sender of the log has a row, and this id has none yet
  have nothing : timesSent log id = 0 := by
    rw [timesSent, List.count_eq_zero]
    intro member
    obtain ⟨sent, inside, same⟩ := List.mem_map.mp member
    exact unknown (same ▸ numbered.known sent inside)
  refine ⟨?_, ?_, ?_, numbered.used, numbered.fresh⟩
  · rw [keys, ← List.concat_eq_append]
    exact numbered.distinct.concat unknown
  · rw [keys, nonces, numbered.nonces, List.map_append, List.map_singleton, nothing]
    rfl
  · intro sent member
    rw [keys]
    exact List.mem_append_left _ (numbered.known sent member)

private theorem ofNat_ne_of_lt {earlier count : Nat} (less : earlier < count)
    (small : count < 2 ^ 31) : Int32.ofNat count ≠ Int32.ofNat earlier := by
  intro same
  have values := congrArg Int32.toInt same
  rw [Int32.toInt_ofNat_of_lt small, Int32.toInt_ofNat_of_lt (Nat.lt_trans less small)] at values
  omega

/-- An accepted transfer takes the next number of its sender. -/
private theorem Numbered.send {log : List (List Char × Int32)} {found after : AccountLedger}
    (numbered : Numbered log found) {i : Nat} {sender : List Char}
    (row : found.keys[i]? = some sender) (keys : after.keys = found.keys)
    (nonces : after.nonces = found.nonces.modify i (· + 1)) :
    Numbered (log ++ [(sender, Int32.ofNat (timesSent log sender))]) after := by
  have grows (id : List Char) : timesSent log id ≤
      timesSent (log ++ [(sender, Int32.ofNat (timesSent log sender))]) id := by
    rw [timesSent_concat]
    exact Nat.le_add_right _ _
  refine ⟨keys ▸ numbered.distinct, ?_, ?_, ?_, ?_⟩
  · rw [nonces, keys, numbered.nonces]
    apply Table.modify_map_of_nodup numbered.distinct row
    · rw [timesSent_concat, if_pos rfl]
      exact Int32.ofNat_add _ _
    · intro id different
      rw [timesSent_concat, if_neg different, Nat.add_zero]
  · intro sent member
    rw [keys]
    rcases List.mem_append.mp member with old | new
    · exact numbered.known sent old
    · rw [List.mem_singleton.mp new]
      exact List.mem_of_getElem? row
  · intro sent member
    rcases List.mem_append.mp member with old | new
    · obtain ⟨earlier, less, nonce⟩ := numbered.used sent old
      exact ⟨earlier, Nat.lt_of_lt_of_le less (grows sent.1), nonce⟩
    · rw [List.mem_singleton.mp new]
      refine ⟨timesSent log sender, ?_, rfl⟩
      rw [timesSent_concat, if_pos rfl]
      exact Nat.lt_succ_self _
  -- its earlier nonces are smaller numbers, and numbers below 2 ^ 31 stay apart
  · intro few
    rw [List.length_append, List.length_singleton] at few
    rw [← List.concat_eq_append]
    apply (numbered.fresh (by omega)).concat
    intro member
    obtain ⟨earlier, less, nonce⟩ := numbered.used _ member
    have count := timesSent_le log sender
    exact ofNat_ne_of_lt less (by simp only; omega) nonce

private theorem sentTransfers_of_isCredit {env : Env} {ledger : Ledger} {op : LedgerOp}
    (credit : op.IsCredit) : sentTransfers env ledger op = [] := by
  cases op with
  | confirm | creditMiner => exact ite_self []
  | transfer | transferNonce => exact absurd credit id

private theorem sentTransfers_of_not_ok {env : Env} {ledger : Ledger} {op : LedgerOp}
    (failed : (op.call env ledger).ok = false) : sentTransfers env ledger op = [] := by
  unfold sentTransfers
  rw [failed]
  rfl

/-- The nonce logged for a transfer is the one its sender's row carries. -/
private theorem sentTransfers_of_sends {env : Env} {ledger : Ledger} {op : LedgerOp}
    {sender recipient : List Char} {amount nonce : Int32} {ids : List (List Char)} {i : Nat}
    (sends : op.Sends sender recipient amount nonce) (ok : (op.call env ledger).ok = true)
    (row : Table.position Account.key sender (lookups ledger.accountLedger ids).accounts = some i)
    (current : nonce = ((lookups ledger.accountLedger ids).row i).nonce) :
    sentTransfers env ledger op = [(sender, nonce)] := by
  unfold sentTransfers
  rw [if_pos ok]
  -- `ledger_transfer` reads the nonce before the lookups, which do not change it
  rcases sends with ⟨rfl, _⟩ | rfl
  · have found := row_eq_of_position row
    have same : (lookups ledger.accountLedger ids).nonceOf sender =
        ledger.accountLedger.nonceOf sender :=
      lookups_keeps (fun table => table.nonceOf sender = ledger.accountLedger.nonceOf sender)
        (fun table id _ kept =>
          (read_findOrCreateAccount Account.nonce (fun _ => rfl) table id sender).trans kept) rfl
    rw [AccountLedger.nonceOf, found, Option.map_some, Option.getD_some, ← current] at same
    rw [same]
  · rfl

private theorem numbered_step (env : Env) {ledger : Ledger} (op : LedgerOp)
    {log : List (List Char × Int32)} (model : ledger.model = .account)
    (numbered : Numbered log ledger.accountLedger)
    (short : ∀ id ∈ op.ids, id.length < studentIdLen) :
    (ledgerStep env ledger op).model = .account ∧
    Numbered (log ++ sentTransfers env ledger op) (ledgerStep env ledger op).accountLedger := by
  have step := opStep env op (fun utxo => by rw [model] at utxo; cases utxo)
  have looked {ids : List (List Char)} (known : ∀ id ∈ ids, id ∈ op.ids) :
      Numbered log (lookups ledger.accountLedger ids) :=
    lookups_keeps (Numbered log)
      (fun _ id member kept => kept.findOrCreateAccount (short id (known id member))) numbered
  rw [ledgerStep]
  generalize result : op.call env ledger = outcome at step
  cases step with
  | @idle ok _ free =>
    -- what succeeds without effect is a credit
    have nothing : sentTransfers env ledger op = [] := by
      cases ok with
      | false => exact sentTransfers_of_not_ok (by rw [result])
      | true => exact sentTransfers_of_isCredit (free rfl).1
    rw [nothing, List.append_nil]
    exact ⟨model, numbered⟩
  | lookedUp known =>
    rw [sentTransfers_of_not_ok (by rw [result]), List.append_nil]
    exact ⟨model, looked known⟩
  | @credited owner amount accounts i f _ known row credits nonce credit =>
    have kept : Numbered log (lookups ledger.accountLedger [owner]) :=
      looked (by simpa using known)
    simp only [lookups, List.foldl_cons, List.foldl_nil, row] at kept
    rw [sentTransfers_of_isCredit credit, List.append_nil]
    refine ⟨model, ?_, ?_, ?_, kept.used, kept.fresh⟩
    · rw [keys_modifyRow _ _ credits.studentId]
      exact kept.distinct
    · rw [keys_modifyRow _ _ credits.studentId, nonces_modifyRow_same _ _ nonce]
      exact kept.nonces
    · rw [keys_modifyRow _ _ credits.studentId]
      exact kept.known
  | added utxo | refused utxo =>
    rw [model] at utxo
    cases utxo
  | @posted sender recipient amount nonce found i j _ sends looked_eq inside _ senderRow _
      current =>
    subst looked_eq
    have shortSender : sender.length < studentIdLen := by
      apply short
      rcases sends with ⟨rfl, _⟩ | rfl <;> simp [LedgerOp.ids]
    have row := senderRow shortSender
    have kept := looked (fun _ member => member)
    have key := getElem?_keys row
    -- the nonce was checked against the row, and the row counts the transfers sent
    have number : nonce = Int32.ofNat (timesSent log sender) := by
      have column := getElem?_nonces inside
      rw [kept.nonces, List.getElem?_map, key, Option.map_some, Option.some_inj] at column
      rw [current, column]
    rw [sentTransfers_of_sends sends (by rw [result]) row current, number]
    exact ⟨model, kept.send key (keys_postTransfer _ _ _ _ _ _ _)
      (nonces_postTransfer _ _ _ _ _ _ _)⟩

private theorem numbered_ledgerInit (registry : StudentRegistry) :
    Numbered [] (ledgerInit .account registry).2.accountLedger := by
  obtain ⟨ids, known, accounts⟩ := accountLedger_ledgerInit .account registry
  rw [accounts]
  refine lookups_keeps (Numbered [])
    (fun _ id member kept => kept.findOrCreateAccount (length_of_mem_ids (known id member))) ?_
  exact ⟨List.nodup_nil, rfl, by simp, by simp, fun _ => List.nodup_nil⟩

/-- In every run of fewer than `2 ^ 31` ledger calls in the account model, with ids that
fit their fields, the nonce of each account counts the transfers it has sent, and no
two of them have the same sender and nonce. -/
theorem nonces_count_transfers (env : Env) (registry : StudentRegistry) (ops : List LedgerOp)
    (few : ops.length < 2 ^ 31) (short : ∀ op ∈ ops, ∀ id ∈ op.ids, id.length < studentIdLen) :
    let start := (ledgerInit .account registry).2
    let sent := Runs.trace (ledgerStep env) (sentTransfers env) start ops
    (∀ account ∈ (Runs.final (ledgerStep env) start ops).accountLedger.accounts,
      account.nonce.toInt = timesSent sent account.studentId.text) ∧ sent.Nodup := by
  intro start sent
  have guarded : Runs.Guarded (ledgerStep env)
      (fun _ op => ∀ id ∈ op.ids, id.length < studentIdLen) start ops :=
    Runs.guarded_of_forall_mem (ledgerStep env) (fun op member _ => short op member) start
  have run := Runs.logged_invariant (ledgerStep env) (sentTransfers env)
    (fun log ledger => ledger.model = .account ∧ Numbered log ledger.accountLedger)
    (fun log ledger op kept short => numbered_step env op kept.1 kept.2 short)
    (s := start) ⟨model_ledgerInit .account registry, numbered_ledgerInit registry⟩
    guarded
  obtain ⟨_, numbered⟩ := run
  rw [List.nil_append] at numbered
  change Numbered sent _ at numbered
  -- a call sends at most one transfer, so no nonce wraps
  have bound : sent.length ≤ ops.length :=
    Runs.length_trace_le (ledgerStep env) (sentTransfers env) (fun ledger op => by
      unfold sentTransfers
      split
      · split <;> simp
      · simp) start ops
  refine ⟨?_, numbered.fresh (by omega)⟩
  intro account member
  obtain ⟨i, inside, rfl⟩ := List.getElem_of_mem member
  have column := congrArg (fun nonces => nonces[i]?) numbered.nonces
  simp only [AccountLedger.nonces, AccountLedger.keys, List.getElem?_map,
    List.getElem?_eq_getElem inside, Option.map_some, Option.some_inj] at column
  rw [column]
  exact Int32.toInt_ofNat_of_lt
    (Nat.lt_of_le_of_lt (Nat.le_trans (timesSent_le sent _) bound) few)

/-- Two accepted transfers, a replay of the first one, and a self-transfer. -/
theorem nonces_count_transfers_sample :
    let ops := [.creditMiner "ALU001".toList 20,
      .transferNonce "ALU001".toList "ALU002".toList 3 0,
      .transfer "ALU001".toList "ALU002".toList 4,
      .transferNonce "ALU001".toList "ALU002".toList 3 0,
      .transferNonce "ALU002".toList "ALU002".toList 1 0]
    let start := (ledgerInit .account Sample.registry).2
    let sent := Runs.trace (ledgerStep Sample.env) (sentTransfers Sample.env) start ops
    (∀ account ∈ (Runs.final (ledgerStep Sample.env) start ops).accountLedger.accounts,
      account.nonce.toInt = timesSent sent account.studentId.text) ∧ sent.Nodup :=
  nonces_count_transfers Sample.env Sample.registry _ (by decide) (by decide)

end Attendance
