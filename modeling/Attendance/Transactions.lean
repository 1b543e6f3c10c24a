import Attendance.Crypto

/-!
# Reward transactions

`transactions.c`: the reward of a status, the text of a transaction and its id.
-/
namespace Attendance

open CText

def tokenRewardForStatus (status : List Char) : Int32 :=
  if status = "PRESENT".toList then rewardPresent
  else if status = "LATE".toList then rewardLate
  else rewardAbsent

/-- One `snprintf` at offset `written`, with the check that its output fits. -/
def appendText (bufferSize : Nat) (written piece : List Char) : Option (List Char) :=
  if written.length + piece.length ≥ bufferSize then none else some (written ++ piece)

def headerText (tx : Transaction) : List Char :=
  "reward=".toList ++ decimal (if tx.isReward then 1 else 0) ++
  "|fee=".toList ++ signedDecimal tx.fee.toInt ++
  "|inputs=".toList ++ decimal tx.inputs.length ++
  "|outputs=".toList ++ decimal tx.outputs.length

def inputText (input : TxInput) : List Char :=
  "|in:".toList ++ input.utxoRef.text ++ ':' :: input.owner.text ++
    ':' :: signedDecimal input.amount.toInt

def outputText (output : TxOutput) : List Char :=
  "|out:".toList ++ output.owner.text ++ ':' :: signedDecimal output.amount.toInt

/-- The text left in the buffer; `none` is the C function returning false. -/
def serializeTransaction (tx : Transaction) (bufferSize : Nat) : Option (List Char) := do
  -- the first piece that does not fit ends the call
  let header ← appendText bufferSize [] (headerText tx)
  let withInputs ← tx.inputs.foldlM (fun text input =>
    appendText bufferSize text (inputText input)) header
  tx.outputs.foldlM (fun text output => appendText bufferSize text (outputText output)) withInputs

/-- `sizeof(buffer)` in `compute_transaction_id`. -/
abbrev transactionBufferSize : Nat := 1024

def computeTransactionId (env : Env) (tx : Transaction) : Option (CStr hashLen) :=
  (serializeTransaction tx transactionBufferSize).map (sha256Hex env)

/-- The return value, and the transaction as it is left also when that is false. -/
def createRewardTransaction (env : Env) (block : Block) : Bool × Transaction :=
  if block.tokenReward ≤ 0 then (true, {})
  else
    -- neither the block's time nor its index enters the transaction
    let output : TxOutput := ⟨.strncpy block.studentId.text, block.tokenReward - txFee⟩
    let tx : Transaction := { isReward := true, fee := txFee, outputs := [output] }
    -- a reward of 1 leaves nothing after the fee
    if output.amount ≤ 0 then (false, tx)
    else
      match computeTransactionId env tx with
      | none => (false, tx)
      | some txId => (true, { tx with txId })

/-- The printed fields of an output determine it. -/
theorem output_eq_of_texts {left right : TxOutput}
    (owner : left.owner.text = right.owner.text)
    (amount : signedDecimal left.amount.toInt = signedDecimal right.amount.toInt) :
    left = right := by
  obtain ⟨id, value⟩ := left
  obtain ⟨id', value'⟩ := right
  obtain rfl : id = id' := CStr.ext owner
  obtain rfl : value = value' := Int32.toInt_inj.mp (signedDecimal_injective amount)
  rfl

/-- The text of a transaction, whatever its length. -/
def transactionText (tx : Transaction) : List Char :=
  headerText tx ++ tx.inputs.flatMap inputText ++ tx.outputs.flatMap outputText

private theorem foldlM_appendText {α : Type} (bufferSize : Nat) (text : α → List Char)
    (items : List α) (written : List Char) (fits : written.length < bufferSize) :
    items.foldlM (fun written item => appendText bufferSize written (text item)) written =
      if (written ++ items.flatMap text).length < bufferSize then
        some (written ++ items.flatMap text) else none := by
  induction items generalizing written with
  | nil => simp [fits]
  | cons item items ih =>
    rw [List.foldlM_cons, List.flatMap_cons]
    by_cases overflow : written.length + (text item).length ≥ bufferSize
    · rw [appendText, if_pos overflow, if_neg]
      · rfl
      · simp only [List.length_append]
        omega
    · rw [appendText, if_neg overflow, Option.bind_eq_bind, Option.bind_some,
        ih (written ++ text item) (by rw [List.length_append]; omega), List.append_assoc]

/-- The offset checks together say that the whole text and its NUL fit. -/
theorem serializeTransaction_eq (tx : Transaction) (bufferSize : Nat) :
    serializeTransaction tx bufferSize =
      if (transactionText tx).length < bufferSize then some (transactionText tx) else none := by
  have longer : (headerText tx).length ≤ (headerText tx ++ tx.inputs.flatMap inputText).length ∧
      (headerText tx ++ tx.inputs.flatMap inputText).length ≤ (transactionText tx).length := by
    simp only [transactionText, List.length_append]
    omega
  unfold serializeTransaction appendText
  -- the text is written in three parts, and only its end can be too long for the buffer
  by_cases header : (headerText tx).length < bufferSize
  · have headerFits : ¬([] : List Char).length + (headerText tx).length ≥ bufferSize := by
      rw [List.length_nil]
      omega
    simp only [if_neg headerFits, List.nil_append, Option.bind_eq_bind, Option.bind_some]
    change (tx.inputs.foldlM (fun text input => appendText bufferSize text (inputText input))
      (headerText tx)).bind (fun withInputs => tx.outputs.foldlM
        (fun text output => appendText bufferSize text (outputText output)) withInputs) = _
    rw [foldlM_appendText bufferSize inputText tx.inputs _ header]
    by_cases inputs : (headerText tx ++ tx.inputs.flatMap inputText).length < bufferSize
    · rw [if_pos inputs, Option.bind_some, foldlM_appendText bufferSize outputText _ _ inputs,
        transactionText]
    · rw [if_neg inputs, if_neg (by omega)]
      rfl
  · have headerOverflows : ([] : List Char).length + (headerText tx).length ≥ bufferSize := by
      rw [List.length_nil]
      omega
    rw [if_pos headerOverflows, if_neg (by omega)]
    rfl

private theorem length_outputText_le (output : TxOutput) : (outputText output).length ≤ 36 := by
  have amount := length_signedDecimal_int32 output.amount
  have owner : output.owner.text.length < 20 := output.owner.fits
  have word : "|out:".toList.length = 5 := by decide
  unfold outputText
  simp only [List.length_append, List.length_cons, word]
  omega

private theorem length_flatMap_outputText_le (outputs : List TxOutput) :
    (outputs.flatMap outputText).length ≤ 36 * outputs.length := by
  induction outputs with
  | nil => simp
  | cons output outputs ih =>
    have first := length_outputText_le output
    rw [List.flatMap_cons, List.length_append, List.length_cons]
    omega

/-- A transaction with a few outputs and no input always gets an id. -/
theorem computeTransactionId_of_few (env : Env) {tx : Transaction} (inputs : tx.inputs = [])
    (few : tx.outputs.length < 10) :
    computeTransactionId env tx = some (sha256Hex env (transactionText tx)) := by
  have fee := length_signedDecimal_int32 tx.fee
  have outputs := length_flatMap_outputText_le tx.outputs
  have zero : (decimal 0).length = 1 := rfl
  have count : (decimal tx.outputs.length).length ≤ 1 := length_decimal_le (by omega) few
  have reward : (decimal (if tx.isReward then 1 else 0)).length = 1 := by split <;> rfl
  have rewardWord : "reward=".toList.length = 7 := by decide
  have feeWord : "|fee=".toList.length = 5 := by decide
  have inputsWord : "|inputs=".toList.length = 8 := by decide
  have outputsWord : "|outputs=".toList.length = 9 := by decide
  have fits : (transactionText tx).length < transactionBufferSize := by
    unfold transactionText headerText
    simp only [inputs, List.flatMap_nil, List.length_append, List.length_nil, zero, reward,
      rewardWord, feeWord, inputsWord, outputsWord, transactionBufferSize]
    omega
  rw [computeTransactionId, serializeTransaction_eq, if_pos fits, Option.map_some]

theorem computeTransactionId_single (env : Env) {tx : Transaction} {output : TxOutput}
    (inputs : tx.inputs = []) (outputs : tx.outputs = [output]) :
    computeTransactionId env tx = some (sha256Hex env (transactionText tx)) :=
  computeTransactionId_of_few env inputs (by simp [outputs])

/-- The transaction of a block with a positive reward, before its id is known. -/
def unidentifiedReward (block : Block) : Transaction :=
  { isReward := true, fee := txFee, outputs := [⟨block.studentId, block.tokenReward - txFee⟩] }

/-- The fee can be taken from every positive reward. -/
theorem toInt_tokenReward_sub_txFee {block : Block} (positive : 0 < block.tokenReward) :
    (block.tokenReward - txFee).toInt = block.tokenReward.toInt - 1 := by
  have bounds := block.tokenReward.toInt_lt
  have value : (0 : Int) < block.tokenReward.toInt := Int32.lt_iff_toInt_lt.mp positive
  apply MachineInt.toInt_sub_of_fits
  have one : (txFee : Int32).toInt = 1 := rfl
  simp only [MachineInt.subOverflows, MachineInt.InInt, one, Bool.not_eq_false', decide_eq_true_eq]
  omega

theorem nonneg_tokenReward_sub_txFee {block : Block} (positive : 0 < block.tokenReward) :
    0 ≤ block.tokenReward - txFee := by
  have value : (0 : Int) < block.tokenReward.toInt := Int32.lt_iff_toInt_lt.mp positive
  rw [Int32.le_iff_toInt_le, toInt_tokenReward_sub_txFee positive, Int32.toInt_zero]
  omega

/-- A reward larger than the fee always gives a transaction. -/
theorem createRewardTransaction_eq (env : Env) {block : Block} (large : 1 < block.tokenReward) :
    createRewardTransaction env block =
      (true, { unidentifiedReward block with
        txId := sha256Hex env (transactionText (unidentifiedReward block)) }) := by
  have value : (1 : Int) < block.tokenReward.toInt := Int32.lt_iff_toInt_lt.mp large
  have exact' := toInt_tokenReward_sub_txFee
    (Int32.lt_iff_toInt_lt.mpr (Int.lt_trans (by decide : (0 : Int) < 1) value))
  have positive : ¬block.tokenReward ≤ 0 := by
    rw [Int32.le_iff_toInt_le, Int32.toInt_zero]
    omega
  have remains : ¬block.tokenReward - txFee ≤ 0 := by
    rw [Int32.le_iff_toInt_le, Int32.toInt_zero]
    omega
  simp only [createRewardTransaction, if_neg positive, if_neg remains, CStr.strncpy_text]
  rw [computeTransactionId_single env rfl (rfl : _ = [_])]
  rfl

/-- A positive reward gives one output, also when the call fails. -/
theorem outputs_createRewardTransaction (env : Env) {block : Block}
    (positive : 0 < block.tokenReward) :
    (createRewardTransaction env block).2.outputs =
      [⟨block.studentId, block.tokenReward - txFee⟩] := by
  simp only [createRewardTransaction, if_neg (Int32.not_le.mpr positive), CStr.strncpy_text]
  split
  · rfl
  · split <;> rfl

end Attendance
