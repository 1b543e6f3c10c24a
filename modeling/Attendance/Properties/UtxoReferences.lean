import Attendance.Ledger.Operations
import Attendance.Records
import Attendance.Sample

/-!
# What a reference to an unspent output says

A reward transaction contains nothing but the student and the reward, so that two
equal rewards have one id and their outputs one reference. Entries that share a
reference are interchangeable: they have the same owner and the same amount.
-/
namespace Attendance

open CText MachineInt Calls

/-- The texts the ids of the credited transactions are computed from. -/
def creditTexts (env : Env) (ops : List LedgerOp) : Set (List Char) :=
  { text | ∃ op ∈ ops, op.IsCredit ∧ text = transactionText (op.transaction env) }

private theorem transactionText_of_paysOne {tx : Transaction} {output : TxOutput}
    (pays : PaysOne tx output) : ∃ header, header.length = 38 ∧
      transactionText tx = header ++ (output.owner.text ++
        ':' :: signedDecimal output.amount.toInt) := by
  obtain ⟨isReward, fee, inputs, outputs⟩ := pays
  refine ⟨headerText tx ++ "|out:".toList, ?_, ?_⟩
  -- every number before the owner has one digit
  · have one : (decimal 1).length = 1 := rfl
    have zero : (decimal 0).length = 1 := rfl
    have digit : (signedDecimal tx.fee.toInt).length = 1 := by
      rcases fee with fee | fee <;> rw [fee] <;> rfl
    unfold headerText
    simp only [isReward, if_true, inputs, outputs, List.length_append, List.length_nil,
      List.length_cons, digit, one, zero]
    decide
  · have text : outputText output = "|out:".toList ++ (output.owner.text ++
        ':' :: signedDecimal output.amount.toInt) := List.append_assoc ..
    rw [transactionText, inputs, outputs, List.flatMap_nil, List.append_nil,
      List.flatMap_singleton, text, List.append_assoc]

/-- The text of such a transaction determines its output: the amount has no `:` in it. -/
private theorem output_of_transactionText {left right : Transaction} {output output' : TxOutput}
    (pays : PaysOne left output) (pays' : PaysOne right output')
    (same : transactionText left = transactionText right) : output = output' := by
  obtain ⟨header, length, text⟩ := transactionText_of_paysOne pays
  obtain ⟨header', length', text'⟩ := transactionText_of_paysOne pays'
  rw [text, text'] at same
  -- the headers have one length, so the outputs follow at the same position
  obtain ⟨_, rest⟩ := List.append_inj same (length.trans length'.symm)
  -- an owner may contain a colon, the amount cannot
  obtain ⟨owner, amount⟩ := split_last (colon_notMem_signedDecimal _)
    (colon_notMem_signedDecimal _) rest
  exact output_eq_of_texts owner amount

/-- An entry was made from a transaction whose text is among the given ones. -/
def Traced (env : Env) (texts : Set (List Char)) (entry : UTXO) : Prop :=
  ∃ tx output, PaysOne tx output ∧ transactionText tx ∈ texts ∧
    entry.txId = sha256Hex env (transactionText tx) ∧ entry.owner = output.owner ∧
    entry.amount = output.amount

private theorem traced_step (env : Env) {ledger : Ledger} {op : LedgerOp}
    {texts : Set (List Char)} (attendance : op.FromAttendance)
    (arises : op.IsCredit → transactionText (op.transaction env) ∈ texts)
    (inRange : InRange env ledger op)
    (kept : (∀ entry ∈ ledger.utxoSet.entries, entry.Identified) ∧
      ∀ entry ∈ ledger.utxoSet.entries, Traced env texts entry) :
    (∀ entry ∈ (ledgerStep env ledger op).utxoSet.entries, entry.Identified) ∧
      ∀ entry ∈ (ledgerStep env ledger op).utxoSet.entries, Traced env texts entry := by
  refine ⟨identified_ledgerStep env op kept.1 inRange, ?_⟩
  have step := opStep env op (fun _ => ⟨kept.1, inRange⟩)
  rw [ledgerStep]
  generalize op.call env ledger = outcome at step
  cases step with
  | idle | lookedUp | credited | posted => exact kept.2
  | @added output entry longer _ outputs made appended _ credit =>
    obtain ⟨pays, txId⟩ := paysOne_transaction env credit attendance outputs
    rw [appended, List.forall_mem_append]
    refine ⟨kept.2, ?_⟩
    rw [List.forall_mem_singleton, made]
    exact ⟨_, output, pays, arises credit, by simp [outputEntry, txId], rfl, rfl⟩
  | refused _ spent => exact spent.forall_mem (fun _ => id) kept.2

/-- In every run of attendance rewards, miner credits and transfers from `ledger_init` in
which no `int` operation overflows, entries with one reference have one owner and
amount. -/
theorem same_reference_same_output (env : Env) (registry : StudentRegistry) (ops : List LedgerOp)
    (attendance : ∀ op ∈ ops, op.FromAttendance)
    (inRange : Runs.Guarded (ledgerStep env) (InRange env) (ledgerInit .utxo registry).2 ops)
    (collisionFree : Set.InjOn (sha256Hex env) (creditTexts env ops)) :
    let entries := (Runs.final (ledgerStep env) (ledgerInit .utxo registry).2 ops).utxoSet.entries
    ∀ left ∈ entries, ∀ right ∈ entries,
      left.txId = right.txId → left.outputIndex = right.outputIndex →
      left.owner = right.owner ∧ left.amount = right.amount := by
  have empty := entries_ledgerInit .utxo registry
  have members : Runs.Guarded (ledgerStep env) (fun _ op => op ∈ ops)
      (ledgerInit .utxo registry).2 ops :=
    Runs.guarded_of_forall_mem (ledgerStep env) (fun op member _ => member) _
  obtain ⟨_, traced⟩ := Runs.guarded_invariant (ledgerStep env)
    (fun ledger => (∀ entry ∈ ledger.utxoSet.entries, entry.Identified) ∧
      ∀ entry ∈ ledger.utxoSet.entries, Traced env (creditTexts env ops) entry)
    (fun ledger op kept ok => traced_step env (attendance op ok.2)
      (fun credit => ⟨op, ok.2, credit, rfl⟩) ok.1 kept)
    (by rw [empty]; simp) (inRange.and members)
  intro entries left member right member' ids _
  -- both entries lead back to a credited transaction, and to the same one
  obtain ⟨tx, output, pays, arises, txId, owner, amount⟩ := traced left member
  obtain ⟨tx', output', pays', arises', txId', owner', amount'⟩ := traced right member'
  rw [txId, txId'] at ids
  have same := output_of_transactionText pays pays' (collisionFree arises arises' ids)
  rw [owner, amount, owner', amount', same]
  exact ⟨rfl, rfl⟩

/-- The blocks of a session in which one student is marked present twice, as they are
credited to the ledger. -/
def markedTwice : List LedgerOp :=
  (Runs.final (sessionStep Sample.env Sample.registry) (Sample.start .utxo)
    [.mark "ALU001".toList "PRESENT".toList, .mark "ALU001".toList "PRESENT".toList,
      .mineSolo]).chain.blocks.tail.map .confirm

private theorem collisionFree_markedTwice :
    Set.InjOn (sha256Hex Sample.env) (creditTexts Sample.env markedTwice) := by
  have distinct : ∀ left ∈ markedTwice, ∀ right ∈ markedTwice,
      sha256Hex Sample.env (transactionText (left.transaction Sample.env)) =
        sha256Hex Sample.env (transactionText (right.transaction Sample.env)) →
      transactionText (left.transaction Sample.env) =
        transactionText (right.transaction Sample.env) := by
    decide +kernel
  rintro _ ⟨left, inside, _, rfl⟩ _ ⟨right, inside', _, rfl⟩
  exact distinct left inside right inside'

theorem same_reference_same_output_sample :
    let entries := (Runs.final (ledgerStep Sample.env) (ledgerInit .utxo Sample.registry).2
      markedTwice).utxoSet.entries
    ∀ left ∈ entries, ∀ right ∈ entries,
      left.txId = right.txId → left.outputIndex = right.outputIndex →
      left.owner = right.owner ∧ left.amount = right.amount :=
  same_reference_same_output Sample.env Sample.registry markedTwice
    (by decide +kernel) (by decide +kernel) collisionFree_markedTwice

/-- The two rewards have one reference, although the hash has no collision. -/
theorem references_repeat :
    Set.InjOn (sha256Hex Sample.env) (creditTexts Sample.env markedTwice) ∧
    ¬((Runs.final (ledgerStep Sample.env) (ledgerInit .utxo Sample.registry).2
      markedTwice).utxoSet.entries.map fun entry => (entry.txId, entry.outputIndex)).Nodup :=
  ⟨collisionFree_markedTwice, by decide +kernel⟩

end Attendance
