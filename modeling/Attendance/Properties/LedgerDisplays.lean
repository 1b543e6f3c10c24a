import Attendance.Displays
import Attendance.Properties.DoubleEntry
import Attendance.Properties.LedgerRuns

/-!
# What `utxos` and `history` print says everything

The fields of an entry are printed with words between them, and an id may contain such a word.
But the ids of transactions are hexadecimal, those that are typed are single words, and those of
the registry stand on one line, so that the printed text determines every field.
-/
namespace Attendance

open CText

theorem printed_injective {lines lines' : List (List Char)} (single : ∀ line ∈ lines, '\n' ∉ line)
    (single' : ∀ line ∈ lines', '\n' ∉ line) (same : printed lines = printed lines') :
    lines = lines' :=
  flatMap_concat_injective single single' same

/-- Where the line that says that there are none starts in another way, it is told from lines. -/
private theorem linesOr_injective {start nothing : List Char} {lines lines' : List (List Char)}
    (starts : ∀ line ∈ lines, start <+: line) (starts' : ∀ line ∈ lines', start <+: line)
    (other : ¬start <+: nothing) (same : linesOr nothing lines = linesOr nothing lines') :
    lines = lines' := by
  cases lines with
  | nil =>
    cases lines' with
    | nil => rfl
    | cons line lines' =>
      obtain ⟨rfl, _⟩ := List.cons.inj same
      exact absurd (starts' nothing List.mem_cons_self) other
  | cons line lines =>
    cases lines' with
    | nil =>
      obtain ⟨rfl, _⟩ := List.cons.inj same
      exact absurd (starts line List.mem_cons_self) other
    | cons line' lines' => exact same

private theorem newline_notMem_linesOr {nothing : List Char} {lines : List (List Char)}
    (single : '\n' ∉ nothing) (singles : ∀ line ∈ lines, '\n' ∉ line) :
    ∀ line ∈ linesOr nothing lines, '\n' ∉ line := by
  unfold linesOr
  split
  · simpa using single
  · exact singles

/-- A number that is printed last, behind its name, is determined. -/
private theorem split_number {name front front' : List Char} {value value' : Int32}
    (same : front ++ (name ++ ['=']) ++ signedDecimal value.toInt =
      front' ++ (name ++ ['=']) ++ signedDecimal value'.toInt) : front = front' ∧ value = value' := by
  have avoids (value : Int32) : '=' ∉ signedDecimal value.toInt :=
    notMem_signedDecimal rfl (by decide) _
  rw [← List.append_assoc, ← List.append_assoc, List.append_assoc _ ['='],
    List.append_assoc _ ['=']] at same
  obtain ⟨before, number⟩ := split_last (avoids value) (avoids value') same
  exact ⟨List.append_cancel_right before, Int32.toInt_inj.mp (signedDecimal_injective number)⟩

private theorem newline_notMem_signedDecimal (z : Int) : '\n' ∉ signedDecimal z :=
  notMem_signedDecimal rfl (by decide) z

/-! ### Unspent outputs -/

/-- The id is hexadecimal, and the owner stands on one line. -/
structure UTXO.Printable (entry : UTXO) : Prop where
  txId : ∀ c ∈ entry.txId.text, isHexDigit c = true
  owner : '\n' ∉ entry.owner.text

theorem UTXO.Printable.colon_notMem {entry : UTXO} (printable : entry.Printable) :
    ':' ∉ entry.txId.text :=
  fun member => absurd (printable.txId ':' member) (by decide)

private theorem space_notMem_signedDecimal (z : Int) : ' ' ∉ signedDecimal z :=
  notMem_signedDecimal rfl (by decide) z

/-- The fields are found again from both ends, whatever the owner is called. -/
private theorem entry_of_texts {owned owned' paid paid' : List Char} {left right : UTXO}
    (space : owned = ' ' :: owned') (equals : paid = paid' ++ ['='])
    (printable : left.Printable) (printable' : right.Printable) (spent : left.spent = right.spent)
    (same : left.txId.text ++ ':' :: signedDecimal left.outputIndex.toInt ++ owned ++
        left.owner.text ++ paid ++ signedDecimal left.amount.toInt =
      right.txId.text ++ ':' :: signedDecimal right.outputIndex.toInt ++ owned ++
        right.owner.text ++ paid ++ signedDecimal right.amount.toInt) : left = right := by
  subst space equals
  obtain ⟨rest, amounts⟩ := split_number same
  simp only [List.append_assoc, List.cons_append] at rest
  obtain ⟨txId, rest⟩ := split_first printable.colon_notMem printable'.colon_notMem rest
  obtain ⟨index, owners⟩ := split_first (space_notMem_signedDecimal _)
    (space_notMem_signedDecimal _) rest
  obtain ⟨txId', index', owner', amount', spent'⟩ := left
  simp only at *
  obtain rfl := CStr.ext txId
  obtain rfl := CStr.ext (List.append_cancel_left owners)
  obtain rfl := Int32.toInt_inj.mp (signedDecimal_injective index)
  rw [spent, amounts]

private theorem utxoLine_injective {left right : UTXO} (printable : left.Printable)
    (printable' : right.Printable) (spent : left.spent = right.spent)
    (same : utxoLine left = utxoLine right) : left = right :=
  entry_of_texts (show " | owner=".toList = ' ' :: "| owner=".toList by decide)
    (show " | amount=".toList = " | amount".toList ++ ['='] by decide) printable printable' spent
    (List.append_cancel_left same)

private theorem newline_notMem_utxoLine {entry : UTXO} (printable : entry.Printable) :
    '\n' ∉ utxoLine entry := by
  have txId : '\n' ∉ entry.txId.text := fun member => absurd (printable.txId _ member) (by decide)
  have index : '\n' ∉ ':' :: signedDecimal entry.outputIndex.toInt :=
    List.not_mem_cons_of_ne_of_not_mem (by decide) (newline_notMem_signedDecimal _)
  have owned := List.not_mem_append (List.not_mem_append (List.not_mem_append txId index)
    (show '\n' ∉ " | owner=".toList by decide)) printable.owner
  have paid := List.not_mem_append (List.not_mem_append owned
    (show '\n' ∉ " | amount=".toList by decide)) (newline_notMem_signedDecimal entry.amount.toInt)
  exact List.not_mem_append (show '\n' ∉ "  UTXO ".toList by decide) paid

/-- The listing of unspent outputs determines them. -/
private theorem unspent_of_listing {left right : List UTXO}
    (printable : ∀ entry ∈ left, entry.Printable ∧ entry.spent = false)
    (printable' : ∀ entry ∈ right, entry.Printable ∧ entry.spent = false)
    (same : linesOr "  (no unspent outputs)".toList (left.map utxoLine) =
      linesOr "  (no unspent outputs)".toList (right.map utxoLine)) : left = right := by
  have starts (entries : List UTXO) :
      ∀ line ∈ entries.map utxoLine, "  UTXO ".toList <+: line := by
    rw [List.forall_mem_map]
    exact fun entry _ => List.prefix_append _ _
  have lines := linesOr_injective (starts left) (starts right) (by decide) same
  have numbered (entries : List UTXO) :
      entries.map utxoLine = entries.mapIdx fun _ entry => utxoLine entry :=
    (List.mapIdx_eq_iff.mpr fun _ => List.getElem?_map).symm
  rw [numbered, numbered] at lines
  exact mapIdx_determined (fun _ _ _ first second => utxoLine_injective first.1 second.1
    (first.2.trans second.2.symm)) printable printable' lines

/-! ### Entries that are made -/

private theorem hex_sha256Hex (env : Env) (payload : List Char) :
    ∀ c ∈ (sha256Hex env payload).text, isHexDigit c = true :=
  List.all_eq_true.mp (env.sha256 payload).hex

private theorem hex_computeTransactionId {env : Env} {tx : Transaction} {txId : CStr hashLen}
    (computed : computeTransactionId env tx = some txId) :
    ∀ c ∈ txId.text, isHexDigit c = true := by
  obtain ⟨payload, _, rfl⟩ := Option.map_eq_some_iff.mp computed
  exact hex_sha256Hex env payload

private theorem newline_notMem_strncpy {n : Nat} [NeZero n] {id : List Char} (single : '\n' ∉ id) :
    '\n' ∉ (CStr.strncpy id : CStr n).text :=
  fun member => single (List.mem_of_mem_take member)

/-- Spending does not change what is printed of an entry. -/
private theorem printable_markInputs {set : UTXOSet} {inputs : List TxInput}
    (printable : ∀ entry ∈ set.entries, entry.Printable) :
    ∀ entry ∈ (markInputs set inputs).2.entries, entry.Printable := by
  -- marking an entry as spent keeps its texts
  have marked (utxoRef : List Char) (entries : List UTXO)
      (printable : ∀ entry ∈ entries, entry.Printable) :
      ∀ entry ∈ (markFirst utxoRef entries).2, entry.Printable := by
    induction entries with
    | nil => exact printable
    | cons entry entries ih =>
      rw [List.forall_mem_cons] at printable
      rw [markFirst]
      split
      · exact List.forall_mem_cons.mpr ⟨⟨printable.1.txId, printable.1.owner⟩, printable.2⟩
      · exact List.forall_mem_cons.mpr ⟨printable.1, ih printable.2⟩
  induction inputs generalizing set with
  | nil => exact printable
  | cons input inputs ih =>
    have first : ∀ entry ∈ (utxoMarkSpent set input.utxoRef.text).2.entries, entry.Printable :=
      marked input.utxoRef.text set.entries printable
    rw [markInputs]
    split
    next result =>
      rw [result] at first
      exact first
    next result =>
      rw [result] at first
      exact ih first

private theorem printable_addOutputs {set : UTXOSet} {txId : CStr hashLen} {i : Nat}
    {outputs : List TxOutput} (hex : ∀ c ∈ txId.text, isHexDigit c = true)
    (owners : ∀ output ∈ outputs, '\n' ∉ output.owner.text)
    (printable : ∀ entry ∈ set.entries, entry.Printable) :
    ∀ entry ∈ (addOutputs set txId.text i outputs).2.entries, entry.Printable := by
  induction outputs generalizing set i with
  | nil => exact printable
  | cons output outputs ih =>
    rw [List.forall_mem_cons] at owners
    rw [addOutputs, utxoAdd]
    by_cases room : set.entries.length < maxUtxos
    · simp only [dif_pos room, CStr.strncpy_text]
      apply ih owners.2
      rw [List.forall_mem_append, List.forall_mem_singleton]
      exact ⟨printable, hex, owners.1⟩
    · simp only [dif_neg room]
      exact printable

private theorem printable_utxoTransfer (env : Env) {set : UTXOSet} {sender recipient : List Char}
    (amount : Int32) (single : '\n' ∉ sender) (single' : '\n' ∉ recipient)
    (printable : ∀ entry ∈ set.entries, entry.Printable) :
    ∀ entry ∈ (utxoTransfer env set sender recipient amount).state.entries, entry.Printable := by
  have owners (selectedTotal needed : Int32) :
      ∀ output ∈ transferOutputs sender recipient amount selectedTotal needed,
        '\n' ∉ output.owner.text := by
    unfold transferOutputs
    split <;> simp [newline_notMem_strncpy, single, single']
  simp only [utxoTransfer]
  split
  · exact printable
  split
  · exact printable
  next txId computed =>
    generalize selectInputs sender (amount + txFee) set.entries {} = selection at *
    have spent : ∀ entry ∈ (markInputs set selection.inputs).2.entries, entry.Printable :=
      printable_markInputs printable
    split
    next result =>
      rw [result] at spent
      exact spent
    next result =>
      rw [result] at spent
      exact printable_addOutputs (hex_computeTransactionId computed) (owners _ _) spent

private theorem hex_transaction (env : Env) (op : LedgerOp) :
    ∀ c ∈ (op.transaction env).txId.text, isHexDigit c = true := by
  cases op with
  | creditMiner => exact hex_sha256Hex env _
  | transfer | transferNonce => simp [LedgerOp.transaction, CStr.empty]
  | confirm block =>
    simp only [LedgerOp.transaction, createRewardTransaction]
    split
    · simp [CStr.empty]
    split
    · simp [CStr.empty]
    split
    · simp [CStr.empty]
    next computed => exact hex_computeTransactionId computed

private theorem printable_ledgerStep (env : Env) {ledger : Ledger} {op : LedgerOp}
    (worded : op.Worded) (printable : ∀ entry ∈ ledger.utxoSet.entries, entry.Printable) :
    ∀ entry ∈ (ledgerStep env ledger op).utxoSet.entries, entry.Printable := by
  have single (id : List Char) (known : id ∈ op.ids) : '\n' ∉ id := (worded.1 id known).2
  rw [ledgerStep]
  by_cases credit : op.IsCredit
  · rcases credit_cases env ledger credit with
      ⟨_, _, result⟩ | ⟨source, owner, amount, fee, credits⟩
    · rw [result]
      exact printable
    · have step := credits.step
      generalize op.call env ledger = outcome at step
      cases step with
      | posted | full => exact printable
      | added _ _ appended =>
        -- the new entry stands under a hash in hex, and belongs to an id of the call
        rw [appended, List.forall_mem_append, List.forall_mem_singleton]
        refine ⟨printable, ?_, newline_notMem_strncpy (single owner credits.known)⟩
        rw [outputEntry, CStr.strncpy_text]
        exact hex_transaction env op
  · cases op with
    | confirm | creditMiner => exact absurd trivial credit
    | transferNonce sender recipient amount nonce =>
      simp only [LedgerOp.call, ledgerTransferWithNonce]
      split <;> exact printable
    | transfer sender recipient amount =>
      simp only [LedgerOp.call, ledgerTransfer]
      split
      · exact printable
      split
      · exact printable
      split
      · exact printable_utxoTransfer env amount (single sender (by simp [LedgerOp.ids]))
          (single recipient (by simp [LedgerOp.ids])) printable
      · split <;> exact printable

private theorem model_ledgerStep (env : Env) (ledger : Ledger) (op : LedgerOp) :
    (ledgerStep env ledger op).model = ledger.model := by
  rw [ledgerStep]
  by_cases credit : op.IsCredit
  · exact (opStep_of_isCredit env ledger credit).model
  · cases op with
    | confirm | creditMiner => exact absurd trivial credit
    | transferNonce sender recipient amount nonce =>
      simp only [LedgerOp.call, ledgerTransferWithNonce]
      split <;> rfl
    | transfer sender recipient amount =>
      simp only [LedgerOp.call, ledgerTransfer]
      split
      · rfl
      split
      · rfl
      split
      · rfl
      · split <;> rfl

private theorem model_final (env : Env) (model : LedgerModel) (registry : StudentRegistry)
    (ops : List LedgerOp) :
    (Runs.final (ledgerStep env) (ledgerInit model registry).2 ops).model = model := by
  have admitted : Runs.Guarded (ledgerStep env) (fun _ _ => True) (ledgerInit model registry).2
      ops := Runs.guarded_of_forall_mem _ (fun _ _ _ => trivial) _
  exact Runs.guarded_invariant (ledgerStep env) (fun ledger => ledger.model = model)
    (fun ledger op same _ => (model_ledgerStep env ledger op).trans same)
    (model_ledgerInit model registry) admitted

/-! ### The text of `utxos` -/

private theorem printable_unspent (env : Env) (registry : StudentRegistry) {ops : List LedgerOp}
    (worded : ∀ op ∈ ops, op.Worded) :
    ∀ entry ∈ (Runs.final (ledgerStep env) (ledgerInit .utxo registry).2 ops).utxoSet.unspent,
      entry.Printable ∧ entry.spent = false := by
  have printable := Runs.guarded_invariant (ledgerStep env)
    (fun ledger => ∀ entry ∈ ledger.utxoSet.entries, entry.Printable)
    (fun ledger op printable worded => printable_ledgerStep env worded printable)
    (by simp [entries_ledgerInit])
    (Runs.guarded_of_forall_mem (ledgerStep env) (fun op member _ => worded op member)
      (ledgerInit .utxo registry).2)
  intro entry member
  obtain ⟨there, unspent⟩ := List.mem_filter.mp member
  exact ⟨printable entry there, by simpa using unspent⟩

private theorem single_ledgerPrintUtxoSet {ledger : Ledger}
    (printable : ∀ entry ∈ ledger.utxoSet.unspent, entry.Printable ∧ entry.spent = false) :
    ∀ line ∈ ledgerPrintUtxoSet ledger, '\n' ∉ line := by
  unfold ledgerPrintUtxoSet
  split
  · decide
  · rw [List.forall_mem_append, List.forall_mem_append]
    refine ⟨⟨by decide, ?_⟩, by decide⟩
    apply newline_notMem_linesOr (by decide)
    rw [List.forall_mem_map]
    exact fun entry member => newline_notMem_utxoLine (printable entry member).1

private theorem utxoBalance_of_unspent {left right : UTXOSet} (same : left.unspent = right.unspent)
    (owner : List Char) : utxoBalance left owner = utxoBalance right owner := by
  have owned (set : UTXOSet) : unspentAmounts set owner =
      (set.unspent.filter fun entry => entry.owner.text = owner).map UTXO.amount := by
    simp [unspentAmounts, UTXOSet.unspent, List.filter_filter, Bool.and_comm]
  rw [utxoBalance, utxoBalance, owned, owned, same]

private theorem ledgerPrintBalances_of_unspent {left right : Ledger} (model : left.model = .utxo)
    (model' : right.model = .utxo) (same : left.utxoSet.unspent = right.utxoSet.unspent)
    (students : StudentRegistry) :
    ledgerPrintBalances left students = ledgerPrintBalances right students := by
  have balances (studentId : List Char) :
      ledgerBalance left studentId = ledgerBalance right studentId := by
    simp only [ledgerBalance, model, model']
    exact utxoBalance_of_unspent same studentId
  have line : balanceLine left = balanceLine right := by
    funext student
    rw [balanceLine, balanceLine, balances]
  rw [ledgerPrintBalances, ledgerPrintBalances, model, model', line]

private theorem utxos_of_calls {env env' : Env} {registry registry' : StudentRegistry}
    {ops ops' : List LedgerOp} (worded : ∀ op ∈ ops, op.Worded)
    (worded' : ∀ op ∈ ops', op.Worded) :
    let left := Runs.final (ledgerStep env) (ledgerInit .utxo registry).2 ops
    let right := Runs.final (ledgerStep env') (ledgerInit .utxo registry').2 ops'
    (printed (ledgerPrintUtxoSet left) = printed (ledgerPrintUtxoSet right) ↔
      left.utxoSet.unspent = right.utxoSet.unspent) ∧
    (printed (ledgerPrintUtxoSet left) = printed (ledgerPrintUtxoSet right) →
      ∀ students, ledgerPrintBalances left students = ledgerPrintBalances right students) := by
  intro left right
  have printable := printable_unspent env registry worded
  have printable' := printable_unspent env' registry' worded'
  have model : left.model = .utxo := model_final env .utxo registry ops
  have model' : right.model = .utxo := model_final env' .utxo registry' ops'
  have determined : printed (ledgerPrintUtxoSet left) = printed (ledgerPrintUtxoSet right) →
      left.utxoSet.unspent = right.utxoSet.unspent := by
    intro same
    have lines : ledgerPrintUtxoSet left = ledgerPrintUtxoSet right :=
      printed_injective (single_ledgerPrintUtxoSet printable)
        (single_ledgerPrintUtxoSet printable') same
    simp only [ledgerPrintUtxoSet, model, model'] at lines
    exact unspent_of_listing printable printable'
      (List.append_cancel_left (List.append_cancel_right lines))
  refine ⟨⟨determined, fun same => ?_⟩, fun same students => ?_⟩
  · simp only [ledgerPrintUtxoSet, model, model', same]
  · exact ledgerPrintBalances_of_unspent model model' (determined same) students

/-- Of any two prompts of any runs, both in the UTXO model: `utxos` prints the same text exactly if
the unspent outputs are the same, in all fields and in order; then `balances` prints the same as
well. -/
theorem utxos_prints_everything {κ π : Type} (machine machine' : Machine κ π)
    (disk disk' : Disk) (invocation invocation' : Invocation) :
    ∀ keyed ∈ machine.prompts disk invocation,
    ∀ keyed' ∈ machine'.prompts disk' invocation',
      keyed.2.model = .utxo → keyed'.2.model = .utxo →
      (printed (ledgerPrintUtxoSet keyed.2.ledger) =
          printed (ledgerPrintUtxoSet keyed'.2.ledger) ↔
        keyed.2.ledger.utxoSet.unspent = keyed'.2.ledger.utxoSet.unspent) ∧
      (printed (ledgerPrintUtxoSet keyed.2.ledger) =
          printed (ledgerPrintUtxoSet keyed'.2.ledger) → ∀ students,
        ledgerPrintBalances keyed.2.ledger students =
          ledgerPrintBalances keyed'.2.ledger students) := by
  intro keyed member keyed' member' model model'
  obtain ⟨registry, _, calls⟩ := madeByCalls_prompts machine disk invocation keyed member
  obtain ⟨registry', _, calls'⟩ := madeByCalls_prompts machine' disk' invocation' keyed' member'
  obtain ⟨ops, worded, made⟩ := calls.ledger
  obtain ⟨ops', worded', made'⟩ := calls'.ledger
  rw [made, made', model, model']
  exact utxos_of_calls worded worded'

/-- Two runs that pay different students. -/
theorem utxos_prints_everything_sample :
    ∃ keyed ∈ Sample.machine.prompts Sample.blankDisk
      (Sample.invocation "mark ALU001 PRESENT\nmine solo\n"),
    ∃ keyed' ∈ Sample.machine.prompts Sample.blankDisk
      (Sample.invocation "mark ALU002 PRESENT\nmine solo\n"),
      printed (ledgerPrintUtxoSet keyed.2.ledger) ≠
        printed (ledgerPrintUtxoSet keyed'.2.ledger) := by
  have different : ∃ keyed ∈ Sample.machine.prompts Sample.blankDisk
        (Sample.invocation "mark ALU001 PRESENT\nmine solo\n"),
      ∃ keyed' ∈ Sample.machine.prompts Sample.blankDisk
        (Sample.invocation "mark ALU002 PRESENT\nmine solo\n"),
        keyed.2.model = .utxo ∧ keyed'.2.model = .utxo ∧
        keyed.2.ledger.utxoSet.unspent.length = 2 ∧
        keyed.2.ledger.utxoSet.unspent ≠ keyed'.2.ledger.utxoSet.unspent := by
    decide +kernel
  obtain ⟨keyed, member, keyed', member', model, model', _, other⟩ := different
  exact ⟨keyed, member, keyed', member', (utxos_prints_everything Sample.machine Sample.machine
    Sample.blankDisk Sample.blankDisk _ _ keyed member keyed' member' model model').1.not.mpr
      other⟩

/-! ### Histories -/

/-- The sender has no space in it, and both parties stand on one line. -/
structure TxHistoryNode.Printable (node : TxHistoryNode) : Prop where
  space : ' ' ∉ node.sender.text
  sender : '\n' ∉ node.sender.text
  recipient : '\n' ∉ node.recipient.text

/-- The fields are found again from both ends, whatever the recipient is called. -/
private theorem node_of_texts {start sent sent' paid paid' taken taken' last last' : List Char}
    {left right : TxHistoryNode} (space : sent = ' ' :: sent') (equals : paid = paid' ++ ['='])
    (equals' : taken = taken' ++ ['=']) (equals'' : last = last' ++ ['='])
    (printable : left.Printable) (printable' : right.Printable)
    (same : start ++ left.sender.text ++ sent ++ left.recipient.text ++ paid ++
        signedDecimal left.amount.toInt ++ taken ++ signedDecimal left.fee.toInt ++ last ++
        signedDecimal left.nonce.toInt =
      start ++ right.sender.text ++ sent ++ right.recipient.text ++ paid ++
        signedDecimal right.amount.toInt ++ taken ++ signedDecimal right.fee.toInt ++ last ++
        signedDecimal right.nonce.toInt) : left = right := by
  subst space equals equals' equals''
  obtain ⟨rest, nonces⟩ := split_number same
  obtain ⟨rest, fees⟩ := split_number rest
  obtain ⟨rest, amounts⟩ := split_number rest
  simp only [List.append_assoc, List.cons_append, List.append_cancel_left_eq] at rest
  obtain ⟨senders, recipients⟩ := split_first printable.space printable'.space rest
  obtain ⟨sender, recipient, amount, fee, nonce⟩ := left
  simp only at *
  obtain rfl := CStr.ext senders
  obtain rfl := CStr.ext (List.append_cancel_left recipients)
  rw [amounts, fees, nonces]

private theorem historyLine_injective {entry : Nat} {left right : TxHistoryNode}
    (printable : left.Printable) (printable' : right.Printable)
    (same : historyLine entry left = historyLine entry right) : left = right :=
  node_of_texts (show " recipient=".toList = ' ' :: "recipient=".toList by decide)
    (show " amount=".toList = " amount".toList ++ ['='] by decide)
    (show " fee=".toList = " fee".toList ++ ['='] by decide)
    (show " nonce=".toList = " nonce".toList ++ ['='] by decide) printable printable'
    (List.append_cancel_left same)

private theorem newline_notMem_historyLine (entry : Nat) {node : TxHistoryNode}
    (printable : node.Printable) : '\n' ∉ historyLine entry node := by
  have sent := List.not_mem_append (List.not_mem_append
    (notMem_decimal (c := '\n') rfl entry) (show '\n' ∉ " sender=".toList by decide))
    printable.sender
  have received := List.not_mem_append (List.not_mem_append sent
    (show '\n' ∉ " recipient=".toList by decide)) printable.recipient
  have paid := List.not_mem_append (List.not_mem_append received
    (show '\n' ∉ " amount=".toList by decide)) (newline_notMem_signedDecimal node.amount.toInt)
  have charged := List.not_mem_append (List.not_mem_append paid
    (show '\n' ∉ " fee=".toList by decide)) (newline_notMem_signedDecimal node.fee.toInt)
  have counted := List.not_mem_append (List.not_mem_append charged
    (show '\n' ∉ " nonce=".toList by decide)) (newline_notMem_signedDecimal node.nonce.toInt)
  exact List.not_mem_append (show '\n' ∉ "  #".toList by decide) counted

private theorem nodes_of_listing {left right : List TxHistoryNode}
    (printable : ∀ node ∈ left, node.Printable) (printable' : ∀ node ∈ right, node.Printable)
    (same : linesOr "  (empty)".toList (left.mapIdx fun i node => historyLine (i + 1) node) =
      linesOr "  (empty)".toList (right.mapIdx fun i node => historyLine (i + 1) node)) :
    left = right := by
  have starts (nodes : List TxHistoryNode) :
      ∀ line ∈ nodes.mapIdx (fun i node => historyLine (i + 1) node), "  #".toList <+: line := by
    intro line member
    obtain ⟨i, inside, rfl⟩ := List.mem_mapIdx.mp member
    exact List.prefix_append _ _
  have lines := linesOr_injective (starts left) (starts right) (by decide) same
  refine mapIdx_determined ?_ printable printable' lines
  intro i first second
  exact historyLine_injective

private theorem printable_transferNode {sender recipient : List Char} (amount nonce : Int32)
    (solid : ∀ c ∈ sender, Scan.isSpace c = false) (single : '\n' ∉ sender)
    (single' : '\n' ∉ recipient) : (transferNode sender recipient amount nonce).Printable :=
  ⟨fun member => absurd (solid ' ' (List.mem_of_mem_take member)) (by decide),
    newline_notMem_strncpy single, newline_notMem_strncpy single'⟩

private theorem printable_postings (env : Env) (ledger : Ledger) {op : LedgerOp}
    (worded : op.Worded) : ∀ posting ∈ postings env ledger op, posting.2.Printable := by
  -- rewards and credits name a source of their own, which is one word
  have source (name : List Char) (named : name = "SYSTEM".toList ∨ name = "MINER".toList) :
      ' ' ∉ (CStr.strncpy name : CStr studentIdLen).text ∧
        '\n' ∉ (CStr.strncpy name : CStr studentIdLen).text := by
    rcases named with rfl | rfl <;> decide
  obtain ⟨ids, sender⟩ := worded
  unfold postings
  split
  · cases op with
    | confirm block =>
      have owner := (ids block.studentId.text (by simp [LedgerOp.ids])).2
      by_cases positive : 0 < block.tokenReward
      · simp only [outputs_createRewardTransaction env positive, List.map_singleton,
          List.forall_mem_singleton]
        exact ⟨(source _ (.inl rfl)).1, (source _ (.inl rfl)).2, owner⟩
      · simp [createRewardTransaction, Int32.not_lt.mp positive]
    | creditMiner minerId amount =>
      rw [List.forall_mem_singleton]
      exact ⟨(source _ (.inr rfl)).1, (source _ (.inr rfl)).2,
        newline_notMem_strncpy (ids minerId (by simp [LedgerOp.ids])).2⟩
    | transfer payer recipient amount =>
      have node := printable_transferNode amount (ledger.accountLedger.nonceOf payer) sender
        (ids payer (by simp [LedgerOp.ids])).2 (ids recipient (by simp [LedgerOp.ids])).2
      simp only [List.forall_mem_cons]
      exact ⟨node, node, by simp⟩
    | transferNonce payer recipient amount nonce =>
      have node := printable_transferNode amount nonce sender
        (ids payer (by simp [LedgerOp.ids])).2 (ids recipient (by simp [LedgerOp.ids])).2
      simp only [List.forall_mem_cons]
      exact ⟨node, node, by simp⟩
  · simp

/-! ### The text of `history` -/

private theorem printable_history (env : Env) (registry : StudentRegistry) {ops : List LedgerOp}
    (worded : ∀ op ∈ ops, op.Worded) {account : Account}
    (member : account ∈ (Runs.final (ledgerStep env) (ledgerInit .account registry).2
      ops).accountLedger.accounts) : ∀ node ∈ account.history, node.Printable := by
  have guarded : Runs.Guarded (ledgerStep env) (fun _ op => op.Worded)
      (ledgerInit .account registry).2 ops :=
    Runs.guarded_of_forall_mem (ledgerStep env) (fun op member _ => worded op member) _
  have initial : ∀ posting ∈ ([] : List (List Char × TxHistoryNode)), posting.2.Printable := by
    simp
  have logged := Runs.logged_invariant (ledgerStep env) (postings env)
    (fun log _ => ∀ posting ∈ log, posting.2.Printable)
    (fun log ledger op printable worded => List.forall_mem_append.mpr
      ⟨printable, printable_postings env ledger worded⟩)
    initial guarded
  have journal := journal_run env registry ops
    (fun op member id known => ((worded op member).1 id known).1)
  intro node noted
  -- a node of the history is one that a call has noted
  rw [history_of_journal journal member, nodesOf, List.mem_reverse, List.mem_map] at noted
  obtain ⟨posting, inside, rfl⟩ := noted
  exact logged posting (by simpa using (List.mem_filter.mp inside).1)

private theorem single_historyLines {studentId : List Char} (single : '\n' ∉ studentId)
    {nodes : List TxHistoryNode} (printable : ∀ node ∈ nodes, node.Printable) :
    ∀ line ∈ (HistoryReport.entries nodes).lines studentId, '\n' ∉ line := by
  have title := List.not_mem_append (List.not_mem_append
    (show '\n' ∉ "=== Transaction History for ".toList by decide) single)
    (show '\n' ∉ " ===".toList by decide)
  simp only [HistoryReport.lines]
  rw [List.forall_mem_append, List.forall_mem_append, List.forall_mem_cons,
    List.forall_mem_singleton]
  refine ⟨⟨⟨List.not_mem_nil, title⟩, newline_notMem_linesOr (by decide) ?_⟩, by decide⟩
  intro line member
  obtain ⟨i, inside, rfl⟩ := List.mem_mapIdx.mp member
  exact newline_notMem_historyLine _ (printable _ (List.getElem_mem inside))

private theorem single_noAccount {studentId : List Char} (single : '\n' ∉ studentId) :
    ∀ line ∈ HistoryReport.noAccount.lines studentId, '\n' ∉ line := by
  simp only [HistoryReport.lines]
  rw [List.forall_mem_singleton]
  exact List.not_mem_append (List.not_mem_append
    (show '\n' ∉ "No account found for student ID ".toList by decide) single) (by decide)

private theorem historyReport_of_find {ledger : Ledger} (model : ledger.model = .account)
    (studentId : List Char) : historyReport ledger studentId =
      match (ledger.accountLedger.find studentId).map Account.history with
      | none => .noAccount
      | some nodes => .entries nodes := by
  rw [historyReport, model]
  cases ledger.accountLedger.find studentId <;> rfl

private theorem history_of_calls {env env' : Env} {registry registry' : StudentRegistry}
    {ops ops' : List LedgerOp} (worded : ∀ op ∈ ops, op.Worded)
    (worded' : ∀ op ∈ ops', op.Worded) {studentId : List Char} (single : '\n' ∉ studentId) :
    let left := Runs.final (ledgerStep env) (ledgerInit .account registry).2 ops
    let right := Runs.final (ledgerStep env') (ledgerInit .account registry').2 ops'
    printed (ledgerPrintHistory left studentId) = printed (ledgerPrintHistory right studentId) ↔
      (left.accountLedger.find studentId).map Account.history =
        (right.accountLedger.find studentId).map Account.history := by
  intro left right
  have model : left.model = .account := model_final env .account registry ops
  have model' : right.model = .account := model_final env' .account registry' ops'
  rw [ledgerPrintHistory, ledgerPrintHistory, historyReport_of_find model,
    historyReport_of_find model']
  constructor
  · have printable {account : Account} (found : left.accountLedger.find studentId = some account) :=
      printable_history env registry worded (List.mem_of_find?_eq_some found)
    have printable' {account : Account}
        (found : right.accountLedger.find studentId = some account) :=
      printable_history env' registry' worded' (List.mem_of_find?_eq_some found)
    -- the listing of a history starts with an empty line, the message does not
    have other : "No account found for student ID ".toList ++ studentId ++ ".".toList ≠ [] :=
      List.append_ne_nil_of_right_ne_nil _ (by decide)
    intro same
    cases found : left.accountLedger.find studentId with
    | none =>
      cases found' : right.accountLedger.find studentId with
      | none => rfl
      | some account =>
        rw [found, found'] at same
        have lines := printed_injective (single_noAccount single)
          (single_historyLines single (printable' found')) same
        exact absurd (List.cons.inj lines).1 other
    | some account =>
      cases found' : right.accountLedger.find studentId with
      | none =>
        rw [found, found'] at same
        have lines := printed_injective (single_historyLines single (printable found))
          (single_noAccount single) same
        exact absurd (List.cons.inj lines).1.symm other
      | some account' =>
        rw [found, found'] at same
        have lines := printed_injective (single_historyLines single (printable found))
          (single_historyLines single (printable' found')) same
        exact congrArg some (nodes_of_listing (printable found) (printable' found')
          (List.append_cancel_left (List.append_cancel_right lines)))
  · intro same
    rw [same]

/-- Of any two prompts of any runs, both in the account model, and any id on one line: `history`
prints the same text exactly if both have an account of that name, with one history, or neither
has. -/
theorem history_prints_everything {κ π : Type} (machine machine' : Machine κ π)
    (disk disk' : Disk) (invocation invocation' : Invocation) {studentId : List Char}
    (single : '\n' ∉ studentId) :
    ∀ keyed ∈ machine.prompts disk invocation,
    ∀ keyed' ∈ machine'.prompts disk' invocation',
      keyed.2.model = .account → keyed'.2.model = .account →
      (printed (ledgerPrintHistory keyed.2.ledger studentId) =
          printed (ledgerPrintHistory keyed'.2.ledger studentId) ↔
        (keyed.2.ledger.accountLedger.find studentId).map Account.history =
          (keyed'.2.ledger.accountLedger.find studentId).map Account.history) := by
  intro keyed member keyed' member' model model'
  obtain ⟨registry, _, calls⟩ := madeByCalls_prompts machine disk invocation keyed member
  obtain ⟨registry', _, calls'⟩ := madeByCalls_prompts machine' disk' invocation' keyed' member'
  obtain ⟨ops, worded, made⟩ := calls.ledger
  obtain ⟨ops', worded', made'⟩ := calls'.ledger
  rw [made, made', model, model']
  exact history_of_calls worded worded' single

/-- Two runs that differ in the amount of a transfer. -/
theorem history_prints_everything_sample :
    ∃ keyed ∈ Sample.machine.prompts Sample.blankDisk (Sample.invocation
      "model account\nmark ALU001 LATE\nmine solo\ntransfer ALU001 ALU002 1\n"),
    ∃ keyed' ∈ Sample.machine.prompts Sample.blankDisk (Sample.invocation
      "model account\nmark ALU001 LATE\nmine solo\ntransfer ALU001 ALU002 2\n"),
      printed (ledgerPrintHistory keyed.2.ledger "ALU002".toList) ≠
        printed (ledgerPrintHistory keyed'.2.ledger "ALU002".toList) := by
  have different : ∃ keyed ∈ Sample.machine.prompts Sample.blankDisk (Sample.invocation
        "model account\nmark ALU001 LATE\nmine solo\ntransfer ALU001 ALU002 1\n"),
      ∃ keyed' ∈ Sample.machine.prompts Sample.blankDisk (Sample.invocation
        "model account\nmark ALU001 LATE\nmine solo\ntransfer ALU001 ALU002 2\n"),
        keyed.2.model = .account ∧ keyed'.2.model = .account ∧
        ledgerBalance keyed.2.ledger "ALU002".toList = 1 ∧
        ledgerBalance keyed'.2.ledger "ALU002".toList = 2 ∧
        (keyed.2.ledger.accountLedger.find "ALU002".toList).map Account.history ≠
          (keyed'.2.ledger.accountLedger.find "ALU002".toList).map Account.history := by
    decide +kernel
  obtain ⟨keyed, member, keyed', member', model, model', _, _, other⟩ := different
  exact ⟨keyed, member, keyed', member', (history_prints_everything Sample.machine Sample.machine
    Sample.blankDisk Sample.blankDisk _ _ (by decide) keyed member keyed' member' model
      model').not.mpr other⟩

end Attendance
