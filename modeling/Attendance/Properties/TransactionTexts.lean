import Attendance.Foundation.Scan
import Attendance.Sample
import Attendance.Transactions

/-!
# What the text of a transaction says

`serialize_transaction` escapes nothing, so that an id with a `:` in it can be taken for two
fields, and one with `|in:` or `|out:` in it for two records. All other transactions can be
read off their texts.
-/
namespace Attendance

open CText

/-- The two transactions agree in all that is printed. -/
structure SameContents (left right : Transaction) : Prop where
  isReward : left.isReward = right.isReward
  fee : left.fee = right.fee
  inputs : left.inputs = right.inputs
  outputs : left.outputs = right.outputs

/-- No id can be taken for two fields or two records. -/
structure Transaction.Readable (tx : Transaction) : Prop where
  refs : ∀ input ∈ tx.inputs, ¬"|in:".toList <:+: input.utxoRef.text
  senders : ∀ input ∈ tx.inputs, ':' ∉ input.owner.text
  owners : ∀ output ∈ tx.outputs, ¬"|out:".toList <:+: output.owner.text

/-! ### Records -/

/-- An output is determined by the text it ends. -/
private theorem output_determined {left right : TxOutput} {front front' : List Char}
    (readable : ¬"|out:".toList <:+: left.owner.text)
    (readable' : ¬"|out:".toList <:+: right.owner.text)
    (same : front ++ outputText left = front' ++ outputText right) :
    front = front' ∧ left = right := by
  have text (output : TxOutput) (front : List Char) : front ++ outputText output =
      front ++ ('|' :: "out:".toList ++ output.owner.text) ++
        ':' :: signedDecimal output.amount.toInt := by
    have word : "|out:".toList = '|' :: "out:".toList := by decide
    unfold outputText
    simp only [word, List.append_assoc]
  rw [text, text] at same
  obtain ⟨before, amount⟩ := split_last (colon_notMem_signedDecimal _)
    (colon_notMem_signedDecimal _) same
  obtain ⟨fronts, owner⟩ := split_last_word (by decide) readable readable' before
  exact ⟨fronts, output_eq_of_texts owner amount⟩

/-- An input is determined by the text it ends. -/
private theorem input_determined {left right : TxInput} {front front' : List Char}
    (readable : ¬"|in:".toList <:+: left.utxoRef.text ∧ ':' ∉ left.owner.text)
    (readable' : ¬"|in:".toList <:+: right.utxoRef.text ∧ ':' ∉ right.owner.text)
    (same : front ++ inputText left = front' ++ inputText right) :
    front = front' ∧ left = right := by
  have text (input : TxInput) (front : List Char) : front ++ inputText input =
      front ++ ('|' :: "in:".toList ++ input.utxoRef.text) ++ ':' :: input.owner.text ++
        ':' :: signedDecimal input.amount.toInt := by
    have word : "|in:".toList = '|' :: "in:".toList := by decide
    unfold inputText
    simp only [word, List.append_assoc]
  rw [text, text] at same
  obtain ⟨before, amount⟩ := split_last (colon_notMem_signedDecimal _)
    (colon_notMem_signedDecimal _) same
  obtain ⟨refs, owner⟩ := split_last readable.2 readable'.2 before
  obtain ⟨fronts, utxoRef⟩ := split_last_word (by decide) readable.1 readable'.1 refs
  refine ⟨fronts, ?_⟩
  obtain ⟨ref, id, value⟩ := left
  obtain ⟨ref', id', value'⟩ := right
  obtain rfl : ref = ref' := CStr.ext utxoRef
  obtain rfl : id = id' := CStr.ext owner
  obtain rfl : value = value' := Int32.toInt_inj.mp (signedDecimal_injective amount)
  rfl

/-! ### The header -/

private theorem headerText_append (tx : Transaction) (rest : List Char) :
    headerText tx ++ rest = "reward=".toList ++ (decimal (if tx.isReward then 1 else 0) ++
      '|' :: ("fee=".toList ++ (signedDecimal tx.fee.toInt ++
      '|' :: ("inputs=".toList ++ (decimal tx.inputs.length ++
      '|' :: ("outputs=".toList ++ (decimal tx.outputs.length ++ rest))))))) := by
  have fee : "|fee=".toList = '|' :: "fee=".toList := by decide
  have inputs : "|inputs=".toList = '|' :: "inputs=".toList := by decide
  have outputs : "|outputs=".toList = '|' :: "outputs=".toList := by decide
  unfold headerText
  simp only [fee, inputs, outputs, List.append_assoc, List.cons_append]

private theorem bar_notMem_decimal (k : Nat) : '|' ∉ decimal k := notMem_decimal rfl k

/-- Records start with a bar, so that what precedes them ends with the number of outputs. -/
private theorem records_cons (tx : Transaction) :
    ∃ rest, tx.inputs.flatMap inputText ++ tx.outputs.flatMap outputText ++ ['|'] =
      '|' :: rest := by
  cases tx.inputs with
  | cons input inputs => exact ⟨_, rfl⟩
  | nil =>
    cases tx.outputs with
    | cons output outputs => exact ⟨_, rfl⟩
    | nil => exact ⟨_, rfl⟩

/-- The header is determined, and so are the records after it. -/
private theorem header_determined {left right : Transaction}
    (same : transactionText left = transactionText right) :
    left.isReward = right.isReward ∧ left.fee = right.fee ∧
    left.inputs.length = right.inputs.length ∧ left.outputs.length = right.outputs.length ∧
    left.inputs.flatMap inputText ++ left.outputs.flatMap outputText =
      right.inputs.flatMap inputText ++ right.outputs.flatMap outputText := by
  -- with a bar at its end the text is a row of fields that each end at a bar
  have ended := congrArg (· ++ ['|']) same
  obtain ⟨rest, records⟩ := records_cons left
  obtain ⟨rest', records'⟩ := records_cons right
  simp only [transactionText, List.append_assoc] at ended records records'
  rw [headerText_append, headerText_append, records, records'] at ended
  obtain ⟨reward, ended⟩ := split_first (bar_notMem_decimal _) (bar_notMem_decimal _)
    (List.append_cancel_left ended)
  obtain ⟨fee, ended⟩ := split_first (bar_notMem_signedDecimal _) (bar_notMem_signedDecimal _)
    (List.append_cancel_left ended)
  obtain ⟨inputs, ended⟩ := split_first (bar_notMem_decimal _) (bar_notMem_decimal _)
    (List.append_cancel_left ended)
  obtain ⟨outputs, ended⟩ := split_first (bar_notMem_decimal _) (bar_notMem_decimal _)
    (List.append_cancel_left ended)
  refine ⟨?_, Int32.toInt_inj.mp (signedDecimal_injective fee), decimal_injective inputs,
    decimal_injective outputs, ?_⟩
  · have number := decimal_injective reward
    revert number
    cases left.isReward <;> cases right.isReward <;> decide
  · rw [ended, ← records'] at records
    exact List.append_cancel_right (by simpa using records)

/-! ### Whole transactions -/

private theorem sameContents_of_text {left right : Transaction} (readable : left.Readable)
    (readable' : right.Readable) (same : transactionText left = transactionText right) :
    SameContents left right := by
  obtain ⟨isReward, fee, inputCount, outputCount, records⟩ := header_determined same
  -- the records are read from the last one back to the header
  obtain ⟨front, outputs⟩ := flatMap_determined output_determined readable.owners
    readable'.owners outputCount records
  have pairs {tx : Transaction} (readable : tx.Readable) : ∀ input ∈ tx.inputs,
      ¬"|in:".toList <:+: input.utxoRef.text ∧ ':' ∉ input.owner.text :=
    fun input member => ⟨readable.refs input member, readable.senders input member⟩
  rw [← List.nil_append (left.inputs.flatMap _),
    ← List.nil_append (right.inputs.flatMap _)] at front
  exact ⟨isReward, fee, (flatMap_determined input_determined (pairs readable) (pairs readable')
    inputCount front).2, outputs⟩

/-- Readable transactions with one text are the same, and so are those with one id as long as
the hash does not collide on their texts. -/
theorem transaction_text_determines (env : Env) (left right : Transaction)
    (readable : left.Readable) (readable' : right.Readable) :
    (∀ bufferSize text, serializeTransaction left bufferSize = some text →
      serializeTransaction right bufferSize = some text → SameContents left right) ∧
    (Set.InjOn (sha256Hex env) {transactionText left, transactionText right} →
      ∀ txId, computeTransactionId env left = some txId →
        computeTransactionId env right = some txId → SameContents left right) := by
  have written {tx : Transaction} {bufferSize : Nat} {text : List Char}
      (serialized : serializeTransaction tx bufferSize = some text) :
      transactionText tx = text := by
    rw [serializeTransaction_eq] at serialized
    split at serialized
    · exact Option.some_inj.mp serialized
    · cases serialized
  constructor
  · intro bufferSize text serialized serialized'
    exact sameContents_of_text readable readable'
      ((written serialized).trans (written serialized').symm)
  · intro injective txId computed computed'
    obtain ⟨text, serialized, rfl⟩ := Option.map_eq_some_iff.mp computed
    obtain ⟨text', serialized', hashed⟩ := Option.map_eq_some_iff.mp computed'
    rw [← written serialized, ← written serialized'] at hashed
    exact sameContents_of_text readable readable' (injective (by simp) (by simp) hashed.symm)

/-! ### Ids that are read in two ways -/

/-- A text that is not empty and has no white space and no comma in it. -/
def IsWord (text : List Char) : Prop :=
  text ≠ [] ∧ text.all (fun c => c ≠ ',' && !Scan.isSpace c) = true

instance (text : List Char) : Decidable (IsWord text) := inferInstanceAs (Decidable (_ ∧ _))

/-- A transaction that fits its arrays and has words for ids. -/
def Transaction.FromWords (tx : Transaction) : Prop :=
  tx.inputs.length ≤ maxTxInputs ∧ tx.outputs.length ≤ maxTxOutputs ∧
  (∀ input ∈ tx.inputs, IsWord input.utxoRef.text ∧ IsWord input.owner.text) ∧
  ∀ output ∈ tx.outputs, IsWord output.owner.text

instance (tx : Transaction) : Decidable tx.FromWords :=
  inferInstanceAs (Decidable (_ ∧ _ ∧ (∀ _ ∈ _, _) ∧ ∀ _ ∈ _, _))

/-- Two transactions that are serialized alike. -/
def Confused (left right : Transaction) : Prop :=
  left.FromWords ∧ right.FromWords ∧ (serializeTransaction left transactionBufferSize).isSome ∧
  serializeTransaction left transactionBufferSize =
    serializeTransaction right transactionBufferSize ∧
  ¬(left.inputs = right.inputs ∧ left.outputs = right.outputs)

instance (left right : Transaction) : Decidable (Confused left right) :=
  inferInstanceAs (Decidable (_ ∧ _ ∧ _ ∧ _ ∧ _))

def spend (utxoRef owner : String) (amount : Int32) : TxInput :=
  ⟨.strncpy utxoRef.toList, .strncpy owner.toList, amount⟩

def pay (owner : String) (amount : Int32) : TxOutput := ⟨.strncpy owner.toList, amount⟩

/-- A colon in the owner of an input, `|in:` in a reference and `|out:` in the owner of an
output each make two transactions look alike. -/
theorem ids_read_in_two_ways :
    Confused { inputs := [spend "a:b" "c" 1] } { inputs := [spend "a" "b:c" 1] } ∧
    Confused { inputs := [spend "a:b:1|in:c" "d" 2, spend "e" "f" 3] }
      { inputs := [spend "a" "b" 1, spend "c:d:2|in:e" "f" 3] } ∧
    Confused { outputs := [pay "a:1|out:b" 2, pay "c" 3] }
      { outputs := [pay "a" 1, pay "b:2|out:c" 3] } := by
  decide +kernel

/-- References of the form `txid:index` are readable. -/
theorem transaction_text_determines_sample :
    let left : Transaction :=
      { inputs := [spend "ab:0" "ALU001" 9], outputs := [pay "ALU002" 5, pay "ALU001" 3], fee := 1 }
    let right : Transaction := { left with fee := 0 }
    (∀ bufferSize text, serializeTransaction left bufferSize = some text →
      serializeTransaction right bufferSize = some text → SameContents left right) ∧
    (Set.InjOn (sha256Hex Sample.env) {transactionText left, transactionText right} →
      ∀ txId, computeTransactionId Sample.env left = some txId →
        computeTransactionId Sample.env right = some txId → SameContents left right) := by
  intro left right
  have readable : left.Readable := by constructor <;> decide +kernel
  exact transaction_text_determines Sample.env left right readable
    ⟨readable.refs, readable.senders, readable.owners⟩

end Attendance
