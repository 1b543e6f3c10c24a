import Attendance.Ledger.Basic

/-!
# Calls on the ledger

The calls that create and move tokens, with arbitrary arguments, and everything one of
them can do. Statements about runs of the ledger go through `opStep`.
-/
namespace Attendance

open CText MachineInt Calls

inductive LedgerOp where
  /-- `ledger_apply_confirmed_block` with the transaction `create_reward_transaction` built. -/
  | confirm (block : Block)
  | creditMiner (minerId : List Char) (amount : Int32)
  | transfer (sender recipient : List Char) (amount : Int32)
  | transferNonce (sender recipient : List Char) (amount nonce : Int32)

def LedgerOp.call (env : Env) (ledger : Ledger) : LedgerOp → Outcome Ledger
  | .confirm block => ledgerApplyConfirmedBlock ledger block (createRewardTransaction env block).2
  | .creditMiner minerId amount => ledgerCreditMiner env ledger minerId amount
  | .transfer sender recipient amount => ledgerTransfer env ledger sender recipient amount
  | .transferNonce sender recipient amount nonce =>
    ledgerTransferWithNonce ledger sender recipient amount nonce

def ledgerStep (env : Env) (ledger : Ledger) (op : LedgerOp) : Ledger := (op.call env ledger).state

/-- No `int` operation of the call overflows. -/
def InRange (env : Env) (ledger : Ledger) (op : LedgerOp) : Prop :=
  (op.call env ledger).overflow = false

instance (env : Env) (ledger : Ledger) (op : LedgerOp) : Decidable (InRange env ledger op) :=
  inferInstanceAs (Decidable (_ = _))

/-- The ids a call looks up in the account model, in order; `ledger_transfer` looks up the
sender once more to read its nonce. -/
def LedgerOp.ids : LedgerOp → List (List Char)
  | .confirm block => [block.studentId.text]
  | .creditMiner minerId _ => [minerId]
  | .transfer sender recipient _ => [sender, sender, recipient]
  | .transferNonce sender recipient _ _ => [sender, recipient]

def LedgerOp.IsCredit : LedgerOp → Prop
  | .confirm _ | .creditMiner _ _ => True
  | .transfer _ _ _ | .transferNonce _ _ _ _ => False

instance (op : LedgerOp) : Decidable op.IsCredit := by
  cases op <;> unfold LedgerOp.IsCredit <;> infer_instance

/-- The amount a credit is for. -/
def LedgerOp.credited (env : Env) : LedgerOp → Int
  | .confirm block => exactSum ((createRewardTransaction env block).2.outputs.map TxOutput.amount)
  | .creditMiner _ amount => amount.toInt
  | .transfer _ _ _ | .transferNonce _ _ _ _ => 0

/-- The transaction a credit adds to the UTXO set. -/
def LedgerOp.transaction (env : Env) : LedgerOp → Transaction
  | .confirm block => (createRewardTransaction env block).2
  | .creditMiner minerId amount => { minerTransaction minerId amount with
      txId := sha256Hex env (transactionText (minerTransaction minerId amount)) }
  | .transfer _ _ _ | .transferNonce _ _ _ _ => {}

/-- The transfer a call asks for, with the checks `ledger_transfer` makes itself. -/
def LedgerOp.Sends (op : LedgerOp) (sender recipient : List Char) (amount nonce : Int32) : Prop :=
  (op = .transfer sender recipient amount ∧ 0 < amount ∧ sender ≠ recipient) ∨
    op = .transferNonce sender recipient amount nonce

theorem LedgerOp.Sends.not_isCredit {op : LedgerOp} {sender recipient : List Char}
    {amount nonce : Int32} (sends : op.Sends sender recipient amount nonce) : ¬op.IsCredit := by
  rcases sends with ⟨rfl, _⟩ | rfl <;> exact id

/-- Everything a call can do to the ledger, while transfers of unspent outputs fail. -/
inductive OpStep (env : Env) (ledger : Ledger) (op : LedgerOp) : Outcome Ledger → Prop where
  | idle {ok overflow : Bool} (free : ok = true → op.IsCredit ∧ op.credited env = 0) :
      OpStep env ledger op ⟨ok, ledger, overflow⟩
  | lookedUp {ids : List (List Char)} {overflow : Bool} (known : ∀ id ∈ ids, id ∈ op.ids)
      (transfer : ¬op.IsCredit) :
      OpStep env ledger op
        ⟨false, { ledger with accountLedger := lookups ledger.accountLedger ids }, overflow⟩
  | credited {owner : List Char} {amount : Int32} {accounts : AccountLedger} {i : Nat}
      {f : Account → Account} (model : ledger.model = .account) (known : owner ∈ op.ids)
      (row : findOrCreateAccount ledger.accountLedger owner = (accounts, some i))
      (credits : Credits f amount) (nonce : ∀ account, (f account).nonce = account.nonce)
      (credit : op.IsCredit) (counted : op.credited env = amount.toInt) (nonneg : 0 ≤ amount) :
      OpStep env ledger op
        ⟨true, { ledger with accountLedger := accounts.modifyRow i f },
          addOverflows (accounts.row i).balance amount⟩
  | added {output : TxOutput} {entry : UTXO} {longer : UTXOSet} (model : ledger.model = .utxo)
      (outputs : (op.transaction env).outputs = [output])
      (made : entry = outputEntry (op.transaction env).txId.text 0 output)
      (appended : longer.entries = ledger.utxoSet.entries ++ [entry])
      (identified : entry.Identified) (credit : op.IsCredit)
      (counted : op.credited env = output.amount.toInt) (nonneg : 0 ≤ output.amount) :
      OpStep env ledger op ⟨true, { ledger with utxoSet := longer }, false⟩
  | posted {sender recipient : List Char} {amount nonce : Int32} {found : AccountLedger}
      {i j : Nat} (model : ledger.model = .account)
      (sends : op.Sends sender recipient amount nonce)
      (looked : found = lookups ledger.accountLedger op.ids)
      (inside : i < found.accounts.length) (inside' : j < found.accounts.length)
      (senderRow : sender.length < studentIdLen →
        Table.position Account.key sender found.accounts = some i)
      (recipientRow : recipient.length < studentIdLen →
        Table.position Account.key recipient found.accounts = some j)
      (current : nonce = (found.row i).nonce) (covered : amount + txFee ≤ (found.row i).balance) :
      OpStep env ledger op
        ⟨true, { ledger with
            accountLedger := postTransfer found i j sender recipient amount nonce },
          addOverflows amount txFee || postOverflows found i j amount⟩
  | refused {set : UTXOSet} {overflow : Bool} (model : ledger.model = .utxo)
      (spent : SpentWorthless ledger.utxoSet.entries set.entries) :
      OpStep env ledger op ⟨false, { ledger with utxoSet := set }, overflow⟩

private theorem identified_rewardEntry (env : Env) {block : Block}
    (positive : 0 < block.tokenReward) (output : TxOutput)
    (outputs : (createRewardTransaction env block).2.outputs = [output]) :
    (outputEntry (createRewardTransaction env block).2.txId.text 0 output).Identified := by
  rw [outputs_createRewardTransaction env positive, List.cons.injEq] at outputs
  obtain ⟨rfl, -⟩ := outputs
  by_cases large : 1 < block.tokenReward
  · left
    rw [createRewardTransaction_eq env large, outputEntry, CStr.strncpy_text]
    exact length_sha256Hex env _
  · -- a reward of 1 leaves nothing after the fee, and no id is computed
    right
    have value := Int32.lt_iff_toInt_lt.mp positive
    rw [Int32.lt_iff_toInt_lt] at large
    have nothing : block.tokenReward - txFee = 0 := by
      rw [← Int32.toInt_inj, toInt_tokenReward_sub_txFee positive, Int32.toInt_zero]
      have one : (1 : Int32).toInt = 1 := rfl
      rw [Int32.toInt_zero] at value
      omega
    refine ⟨?_, nothing⟩
    simp [createRewardTransaction, Int32.not_le.mpr positive, nothing, outputEntry, CStr.empty,
      CStr.strncpy]

/-- The call credits the owner, with the data of its transaction. -/
structure CreditsOwner (env : Env) (ledger : Ledger) (op : LedgerOp) (source owner : List Char)
    (amount fee : Int32) : Prop where
  named : source = "SYSTEM".toList ∨ source = "MINER".toList
  known : owner ∈ op.ids
  counted : op.credited env = amount.toInt
  nonneg : 0 ≤ amount
  outputs : (op.transaction env).outputs = [⟨.strncpy owner, amount⟩]
  identified : (outputEntry (op.transaction env).txId.text 0 ⟨.strncpy owner, amount⟩).Identified
  step : CreditStep ledger source owner amount fee (op.transaction env).txId.text
    (op.call env ledger)

private theorem creditsOwner_confirm (env : Env) (ledger : Ledger) {block : Block}
    (positive : 0 < block.tokenReward) :
    CreditsOwner env ledger (.confirm block) "SYSTEM".toList block.studentId.text
      (block.tokenReward - txFee) (createRewardTransaction env block).2.fee := by
  have outputs := outputs_createRewardTransaction env positive
  constructor
  case named => exact Or.inl rfl
  case known => simp [LedgerOp.ids]
  case counted => simp [LedgerOp.credited, outputs]
  case nonneg => exact nonneg_tokenReward_sub_txFee positive
  case outputs => rw [LedgerOp.transaction, outputs, CStr.strncpy_text]
  case identified =>
    rw [CStr.strncpy_text]
    exact identified_rewardEntry env positive _ outputs
  case step => exact creditStep_ledgerApplyConfirmedBlock ledger positive outputs

private theorem creditsOwner_creditMiner (env : Env) (ledger : Ledger) (minerId : List Char)
    {amount : Int32} (positive : 0 < amount) :
    CreditsOwner env ledger (.creditMiner minerId amount) "MINER".toList minerId amount 0 := by
  have id := length_sha256Hex env (transactionText (minerTransaction minerId amount))
  constructor
  case named => exact Or.inr rfl
  case known => simp [LedgerOp.ids]
  case counted => rfl
  case nonneg => exact Int32.le_of_lt positive
  case outputs => rfl
  case identified => exact Or.inl (by simpa [outputEntry, LedgerOp.transaction] using id)
  case step => exact creditStep_ledgerCreditMiner env ledger minerId positive

/-- A credit does nothing, and counts nothing if it succeeds, or it credits an owner. -/
theorem credit_cases (env : Env) (ledger : Ledger) {op : LedgerOp} (credit : op.IsCredit) :
    (∃ ok, (ok = true → op.credited env = 0) ∧ op.call env ledger = ⟨ok, ledger, false⟩) ∨
    ∃ source owner amount fee, CreditsOwner env ledger op source owner amount fee := by
  cases op with
  | transfer | transferNonce => exact absurd credit id
  | confirm block =>
    by_cases positive : 0 < block.tokenReward
    · exact Or.inr ⟨_, _, _, _, creditsOwner_confirm env ledger positive⟩
    -- a block without a reward succeeds and does nothing
    · refine Or.inl ⟨true, fun _ => ?_, if_pos (Int32.not_lt.mp positive)⟩
      simp [LedgerOp.credited, createRewardTransaction, Int32.not_lt.mp positive]
  | creditMiner minerId amount =>
    by_cases positive : 0 < amount
    · exact Or.inr ⟨_, _, _, _, creditsOwner_creditMiner env ledger minerId positive⟩
    · exact Or.inl ⟨false, by simp, if_pos (Int32.not_lt.mp positive)⟩

/-- A credit in the account model: nothing happens, or the row of the owner gains the amount
and a node that names the source. -/
theorem credit_account_cases (env : Env) {ledger : Ledger} {op : LedgerOp}
    (model : ledger.model = .account) (credit : op.IsCredit) :
    (∃ ok, (ok = true → op.credited env = 0) ∧ op.call env ledger = ⟨ok, ledger, false⟩) ∨
    ∃ source owner amount fee accounts i,
      CreditsOwner env ledger op source owner amount fee ∧
      findOrCreateAccount ledger.accountLedger owner = (accounts, some i) ∧
      op.call env ledger = ledger.onAccounts
        ⟨true, accounts.modifyRow i (creditAccount · source owner amount fee),
          addOverflows (accounts.row i).balance amount⟩ := by
  rcases credit_cases env ledger credit with idle | ⟨source, owner, amount, fee, credits⟩
  · exact Or.inl idle
  · have step := credits.step
    generalize called : op.call env ledger = outcome at step
    cases step with
    | added other => rw [model] at other; cases other
    | posted _ row => exact Or.inr ⟨source, owner, amount, fee, _, _, credits, row, rfl⟩
    | full => exact Or.inl ⟨false, by simp, rfl⟩

/-- A credit needs no side condition. -/
theorem opStep_of_isCredit (env : Env) (ledger : Ledger) {op : LedgerOp} (credit : op.IsCredit) :
    OpStep env ledger op (op.call env ledger) := by
  rcases credit_cases env ledger credit with
    ⟨ok, free, result⟩ | ⟨source, owner, amount, fee, credits⟩
  · rw [result]
    exact .idle (fun succeeded => ⟨credit, free succeeded⟩)
  · have step := credits.step
    generalize op.call env ledger = outcome at step
    cases step with
    | added model _ appended =>
      exact .added model credits.outputs rfl appended credits.identified credit credits.counted
        credits.nonneg
    | posted model row =>
      exact .credited model credits.known row (credits_creditAccount _ _ _ _) (fun _ => rfl) credit
        credits.counted credits.nonneg
    | full => exact .idle (by simp)

private theorem opStep_accountTransfer {env : Env} {ledger : Ledger} {op : LedgerOp}
    {sender recipient : List Char} {amount nonce : Int32} {ids : List (List Char)}
    (model : ledger.model = .account) (sends : op.Sends sender recipient amount nonce)
    (all : op.ids = ids ++ [sender, recipient]) :
    OpStep env ledger op (ledger.onAccounts
      (accountTransfer (lookups ledger.accountLedger ids) sender recipient amount nonce)) := by
  have looked : lookups (lookups ledger.accountLedger ids) [sender, recipient] =
      lookups ledger.accountLedger op.ids := by
    simp [lookups, all]
  -- refused transfers keep the rows that were looked up
  rcases accountTransfer_cases (lookups ledger.accountLedger ids) sender recipient amount nonce with
    ⟨_, result⟩ | ⟨_, i, j, senderRow, recipientRow, current, covered, result⟩
  · rw [result, looked]
    exact .lookedUp (fun _ member => member) sends.not_isCredit
  · rw [result]
    refine .posted model sends looked (row_lookups senderRow recipient).1
      (findOrCreateAccount_lt recipientRow) ?_ ?_ current covered
    · intro short
      -- the recipient's lookup adds rows behind the sender's only
      obtain ⟨fresh, grown⟩ := findOrCreateAccount_grows
        (lookups (lookups ledger.accountLedger ids) [sender]) recipient
      rw [recipientRow] at grown
      rw [grown]
      exact Table.position_append Account.key (position_findOrCreateAccount short senderRow) fresh
    · intro short
      exact position_findOrCreateAccount short recipientRow

private theorem opStep_transfer (env : Env) {ledger : Ledger} (sender recipient : List Char)
    (amount : Int32) (ready : ledger.model = .utxo →
      (∀ entry ∈ ledger.utxoSet.entries, entry.Identified) ∧
        InRange env ledger (.transfer sender recipient amount)) :
    OpStep env ledger (.transfer sender recipient amount)
      ((LedgerOp.transfer sender recipient amount).call env ledger) := by
  simp only [InRange, LedgerOp.call, ledgerTransfer] at *
  split
  · exact .idle (by simp)
  next refused =>
    have positive : 0 < amount := Int32.not_le.mp refused
    rw [if_neg refused] at ready
    split
    · exact .idle (by simp)
    next different =>
      rw [if_neg different] at ready
      cases model : ledger.model with
      | utxo =>
        obtain ⟨identified, inRange⟩ := ready model
        simp only [model] at inRange ⊢
        -- some input is not marked as spent, so no output is added
        obtain ⟨failed, spent⟩ := utxoTransfer_fails env sender recipient identified positive
          (fits_of_utxoTransfer inRange)
        rw [Ledger.onUtxos, failed]
        exact .refused model spent
      | account =>
        simp only
        cases result : findOrCreateAccount ledger.accountLedger sender with
        | mk accounts row =>
          cases row with
          | none =>
            -- the table is full, and was not changed
            rw [findOrCreateAccount_none result]
            exact .idle (by simp)
          | some i =>
            have looked : accounts = lookups ledger.accountLedger [sender] := by
              simp [lookups, result]
            rw [looked]
            exact opStep_accountTransfer model (Or.inl ⟨rfl, positive, different⟩) rfl

/-- What a call can do; in the UTXO model, as long as no `int` operation overflows. -/
theorem opStep (env : Env) {ledger : Ledger} (op : LedgerOp)
    (ready : ledger.model = .utxo →
      (∀ entry ∈ ledger.utxoSet.entries, entry.Identified) ∧ InRange env ledger op) :
    OpStep env ledger op (op.call env ledger) := by
  cases op with
  | confirm | creditMiner => exact opStep_of_isCredit env ledger trivial
  | transfer sender recipient amount => exact opStep_transfer env sender recipient amount ready
  | transferNonce sender recipient amount nonce =>
    rw [LedgerOp.call, ledgerTransferWithNonce]
    cases model : ledger.model with
    | utxo => exact .idle (by simp)
    | account =>
      exact opStep_accountTransfer model (Or.inr rfl) (List.nil_append _).symm

theorem OpStep.model {env : Env} {ledger : Ledger} {op : LedgerOp} {outcome : Outcome Ledger}
    (step : OpStep env ledger op outcome) : outcome.state.model = ledger.model := by
  cases step <;> rfl

theorem OpStep.identified {env : Env} {ledger : Ledger} {op : LedgerOp} {outcome : Outcome Ledger}
    (step : OpStep env ledger op outcome)
    (identified : ∀ entry ∈ ledger.utxoSet.entries, entry.Identified) :
    ∀ entry ∈ outcome.state.utxoSet.entries, entry.Identified := by
  cases step with
  | idle | lookedUp | credited | posted => exact identified
  | @added output entry longer _ _ _ appended id =>
    rw [appended, List.forall_mem_append]
    exact ⟨identified, by simpa using id⟩
  | refused _ spent => exact spent.identified identified

theorem identified_ledgerStep (env : Env) {ledger : Ledger} (op : LedgerOp)
    (identified : ∀ entry ∈ ledger.utxoSet.entries, entry.Identified)
    (inRange : InRange env ledger op) :
    ∀ entry ∈ (ledgerStep env ledger op).utxoSet.entries, entry.Identified :=
  (opStep env op (fun _ => ⟨identified, inRange⟩)).identified identified

/-- A credit adds at most one entry, and at most one row, for an id that has none. -/
theorem ledgerStep_grows (env : Env) (ledger : Ledger) (op : LedgerOp) (credit : op.IsCredit) :
    let after := ledgerStep env ledger op
    after.model = ledger.model ∧
    after.utxoSet.entries.length ≤ ledger.utxoSet.entries.length + 1 ∧
    (after.accountLedger.keys = ledger.accountLedger.keys ∨
      ∃ id ∈ op.ids, id ∉ ledger.accountLedger.keys ∧
        after.accountLedger.keys = ledger.accountLedger.keys ++
          [(CStr.strncpy id : CStr studentIdLen).text]) := by
  have step := opStep_of_isCredit env ledger credit
  rw [ledgerStep]
  generalize op.call env ledger = outcome at step ⊢
  cases step with
  | idle => exact ⟨rfl, Nat.le_succ _, Or.inl rfl⟩
  | lookedUp _ transfer => exact absurd credit transfer
  | @credited owner amount accounts i f _ known row credits =>
    refine ⟨rfl, Nat.le_succ _, ?_⟩
    simp only [keys_modifyRow accounts i credits.studentId]
    -- the owner has a row already, or gets one at the end
    rcases findOrCreateAccount_some row with ⟨_, rfl⟩ | ⟨absent, rows, _⟩
    · exact Or.inl rfl
    · right
      refine ⟨owner, known, notMem_keys_of_position absent, ?_⟩
      simp [AccountLedger.keys, rows, newAccount]
  | added _ _ _ appended =>
    refine ⟨rfl, ?_, Or.inl rfl⟩
    rw [appended, List.length_append, List.length_singleton]
  | posted _ sends => exact absurd credit sends.not_isCredit
  | refused _ spent =>
    refine ⟨rfl, ?_, Or.inl rfl⟩
    rw [← List.Forall₂.length_eq spent]
    exact Nat.le_succ _

theorem entries_ledgerInit (model : LedgerModel) (registry : StudentRegistry) :
    (ledgerInit model registry).2.utxoSet.entries = [] := by
  cases model <;> rfl

@[simp] theorem model_ledgerInit (model : LedgerModel) (registry : StudentRegistry) :
    (ledgerInit model registry).2.model = model := by
  cases model <;> rfl

/-- The ids of the registry, in order. -/
def StudentRegistry.ids (registry : StudentRegistry) : List (List Char) :=
  registry.students.map (fun student => student.studentId.text)

theorem length_of_mem_ids {registry : StudentRegistry} {id : List Char}
    (member : id ∈ registry.ids) : id.length < studentIdLen := by
  obtain ⟨student, _, rfl⟩ := List.mem_map.mp member
  exact student.studentId.fits

private theorem createAccounts_eq_lookups (ledger : AccountLedger) (students : List Student) :
    ∃ ids, (∀ id ∈ ids, id ∈ students.map (fun student => student.studentId.text)) ∧
      (createAccounts ledger students).2 = lookups ledger ids := by
  induction students generalizing ledger with
  | nil => exact ⟨[], by simp, rfl⟩
  | cons student students ih =>
    rw [createAccounts]
    cases result : findOrCreateAccount ledger student.studentId.text with
    | mk accounts row =>
      cases row with
      | none =>
        rw [findOrCreateAccount_none result]
        exact ⟨[], by simp, rfl⟩
      | some i =>
        obtain ⟨ids, known, created⟩ := ih accounts
        refine ⟨student.studentId.text :: ids, ?_, ?_⟩
        · rw [List.map_cons, List.forall_mem_cons]
          exact ⟨List.mem_cons_self, fun id member => List.mem_cons_of_mem _ (known id member)⟩
        · simp only [created, lookups, List.foldl_cons, result]

/-- `ledger_init` fills the account table by lookups of student ids. -/
theorem accountLedger_ledgerInit (model : LedgerModel) (registry : StudentRegistry) :
    ∃ ids, (∀ id ∈ ids, id ∈ registry.ids) ∧
      (ledgerInit model registry).2.accountLedger = lookups .empty ids := by
  cases model with
  | utxo => exact ⟨[], by simp, rfl⟩
  | account => exact createAccounts_eq_lookups .empty registry.students

/-- With enough room, the loop of `ledger_init` adds a row for each id that has none, once and
in the order of the students. -/
theorem accounts_createAccounts {ledger : AccountLedger} {students : List Student}
    (room : ledger.accounts.length + students.length ≤ maxStudents) :
    (createAccounts ledger students).2.accounts = ledger.accounts ++
      ((students.map fun student => student.studentId.text).filter
        (· ∉ ledger.keys)).eraseDups.map newAccount := by
  induction students generalizing ledger with
  | nil => simp [createAccounts]
  | cons student students ih =>
    rw [List.length_cons] at room
    have stored : (newAccount student.studentId.text).key = student.studentId.text :=
      CStr.text_strncpy student.studentId.fits
    rw [createAccounts, List.map_cons]
    rcases findOrCreateAccount_cases ledger student.studentId.text with
      ⟨i, found, result⟩ | ⟨absent, longer, rows, result⟩ | ⟨_, full, _⟩
    · have member : student.studentId.text ∈ ledger.keys :=
        List.mem_of_getElem? (getElem?_keys found)
      -- a student listed twice finds the row of the first time
      rw [result, List.filter_cons_of_neg (by simpa using member)]
      exact ih (by omega)
    · have notMember := notMem_keys_of_position absent
      have length : longer.accounts.length = ledger.accounts.length + 1 := by
        rw [rows, List.length_append, List.length_singleton]
      have keys : longer.keys = ledger.keys ++ [student.studentId.text] := by
        rw [AccountLedger.keys, rows, List.map_append, ← AccountLedger.keys, List.map_singleton,
          stored]
      rw [result, List.filter_cons_of_pos (by simpa using notMember), List.eraseDups_cons,
        List.map_cons, List.append_cons, ← rows]
      simp only
      rw [ih (by omega), keys, List.filter_filter]
      congr 3
      apply List.filter_congr
      intro id _
      by_cases same : id = student.studentId.text <;> simp [same]
    · omega

end Attendance
