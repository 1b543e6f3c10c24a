import Attendance.Ledger.Utxos
import Attendance.Sample
import Mathlib.Algebra.Order.BigOperators.Group.List
import Mathlib.Algebra.Order.Ring.Nat
import Mathlib.Algebra.Ring.Nat

/-!
# Ids of transfers

The text of a transfer grows with its inputs, and the buffer of `compute_transaction_id` is
too small for sixteen of them. Which transfers get an id can be told from the number of inputs,
the ids and the amounts.
-/
namespace Attendance

open CText MachineInt

/-- What `utxo_transfer` hands to `compute_transaction_id`. -/
structure IsTransfer (sender : CStr studentIdLen) (tx : Transaction) : Prop where
  isReward : tx.isReward = false
  fee : tx.fee = txFee
  named : sender.text ≠ []
  inputs : 1 ≤ tx.inputs.length ∧ tx.inputs.length ≤ maxTxInputs
  outputs : 1 ≤ tx.outputs.length ∧ tx.outputs.length ≤ 2
  input : ∀ input ∈ tx.inputs,
    input.utxoRef.text.length = 64 ∧ input.owner = sender ∧ 0 < input.amount
  output : ∀ output ∈ tx.outputs, output.owner.text ≠ [] ∧ 0 < output.amount

def amountDigits (amount : Int32) : Nat := digits amount.toInt.toNat

/-- The length of the text of a transfer: the names of its parts, the 64 characters of a
reference, the ids, and the digits of the numbers. -/
def transferLength (sender : CStr studentIdLen) (tx : Transaction) : Nat :=
  32 + digits tx.inputs.length +
  (tx.inputs.map fun input => 70 + sender.text.length + amountDigits input.amount).sum +
  (tx.outputs.map fun output => 6 + output.owner.text.length + amountDigits output.amount).sum

theorem amountDigits_le (amount : Int32) : amountDigits amount ≤ 10 := by
  have small := amount.toInt_lt
  rw [amountDigits, ← length_decimal]
  exact length_decimal_le (by decide) (by omega)

theorem length_signedDecimal_of_pos {amount : Int32} (positive : 0 < amount) :
    (signedDecimal amount.toInt).length = amountDigits amount := by
  have value : (0 : Int) < amount.toInt := Int32.lt_iff_toInt_lt.mp positive
  obtain ⟨k, same⟩ := Int.eq_ofNat_of_zero_le (Int.le_of_lt value)
  rw [amountDigits, same, Int.toNat_natCast]
  exact length_decimal k

/-- The length of a record is a sum over its parts. -/
theorem length_flatMap_of_forall {α : Type} {text : α → List Char} {length : α → Nat}
    {items : List α} (each : ∀ item ∈ items, (text item).length = length item) :
    (items.flatMap text).length = (items.map length).sum := by
  rw [List.length_flatMap]
  exact congrArg List.sum (List.map_congr_left each)

section Length

variable {sender : CStr studentIdLen} {tx : Transaction} (transfer : IsTransfer sender tx)
include transfer

theorem length_headerText_of_isTransfer :
    (headerText tx).length = 32 + digits tx.inputs.length := by
  have few := transfer.outputs.2
  have outputs : (decimal tx.outputs.length).length = 1 := by
    rw [length_decimal, digits, Nat.log_of_lt (by omega)]
  have fee : (signedDecimal tx.fee.toInt).length = 1 := by
    have one : (txFee : Int32).toInt = 1 := rfl
    rw [transfer.fee, one]
    rfl
  have reward : (decimal (if tx.isReward then 1 else 0)).length = 1 := by
    split <;> rfl
  have rewardWord : "reward=".toList.length = 7 := rfl
  have feeWord : "|fee=".toList.length = 5 := rfl
  have inputsWord : "|inputs=".toList.length = 8 := rfl
  have outputsWord : "|outputs=".toList.length = 9 := rfl
  have inputs := length_decimal tx.inputs.length
  unfold headerText
  rw [List.length_append, List.length_append, List.length_append, List.length_append,
    List.length_append, List.length_append, List.length_append, outputs, fee, reward, rewardWord,
    feeWord, inputsWord, outputsWord, inputs]
  omega

theorem length_inputText_of_isTransfer (input : TxInput) (member : input ∈ tx.inputs) :
    (inputText input).length = 70 + sender.text.length + amountDigits input.amount := by
  obtain ⟨reference, owner, positive⟩ := transfer.input input member
  have word : "|in:".toList.length = 4 := rfl
  have amount := length_signedDecimal_of_pos positive
  unfold inputText
  rw [List.length_append, List.length_append, List.length_append, List.length_cons,
    List.length_cons, word, reference, owner, amount]
  omega

theorem length_outputText_of_isTransfer (output : TxOutput) (member : output ∈ tx.outputs) :
    (outputText output).length = 6 + output.owner.text.length + amountDigits output.amount := by
  obtain ⟨_, positive⟩ := transfer.output output member
  have word : "|out:".toList.length = 5 := rfl
  have amount := length_signedDecimal_of_pos positive
  unfold outputText
  rw [List.length_append, List.length_append, List.length_cons, word, amount]
  omega

theorem length_transactionText_of_isTransfer :
    (transactionText tx).length = transferLength sender tx := by
  rw [transactionText, List.length_append, List.length_append,
    length_headerText_of_isTransfer transfer,
    length_flatMap_of_forall (length_inputText_of_isTransfer transfer),
    length_flatMap_of_forall (length_outputText_of_isTransfer transfer), transferLength]

/-- The text of a transfer fits the buffer, and the transfer gets an id, exactly if it is
shorter than 1024 characters. -/
theorem transfer_id_exists_iff (env : Env) :
    ((serializeTransaction tx transactionBufferSize).isSome = true ∧
      (computeTransactionId env tx).isSome = true) ↔ transferLength sender tx < 1024 := by
  rw [computeTransactionId, Option.isSome_map, and_self, serializeTransaction_eq,
    length_transactionText_of_isTransfer transfer]
  by_cases fits : transferLength sender tx < transactionBufferSize
  · rw [if_pos fits]
    exact iff_of_true rfl fits
  · rw [if_neg fits]
    exact iff_of_false (by simp) fits

end Length

/-! ### Few inputs and many -/

section Bounds

variable {sender : CStr studentIdLen} {tx : Transaction} (transfer : IsTransfer sender tx)
include transfer

/-- Nine inputs always leave room. -/
theorem transferLength_lt_of_few (few : tx.inputs.length ≤ 9) :
    transferLength sender tx < 1024 := by
  have name : sender.text.length < 20 := sender.fits
  have each : ∀ length ∈ tx.inputs.map fun input =>
      70 + sender.text.length + amountDigits input.amount, length ≤ 99 := by
    intro length member
    obtain ⟨input, _, rfl⟩ := List.mem_map.mp member
    have amount := amountDigits_le input.amount
    omega
  have each' : ∀ length ∈ tx.outputs.map fun output =>
      6 + output.owner.text.length + amountDigits output.amount, length ≤ 35 := by
    intro length member
    obtain ⟨output, _, rfl⟩ := List.mem_map.mp member
    have amount := amountDigits_le output.amount
    have owner : output.owner.text.length < 20 := output.owner.fits
    omega
  have sum := List.sum_le_card_nsmul _ 99 each
  have sum' := List.sum_le_card_nsmul _ 35 each'
  have count : digits tx.inputs.length = 1 := by rw [digits, Nat.log_of_lt (by omega)]
  have outputs := transfer.outputs.2
  rw [List.length_map, Nat.nsmul_eq_mul] at sum sum'
  rw [transferLength, count]
  omega

/-- Fourteen inputs never do. -/
theorem le_transferLength_of_many (many : 14 ≤ tx.inputs.length) :
    1024 ≤ transferLength sender tx := by
  have each : ∀ length ∈ tx.inputs.map fun input =>
      70 + sender.text.length + amountDigits input.amount, 72 ≤ length := by
    intro length member
    obtain ⟨input, _, rfl⟩ := List.mem_map.mp member
    have name := List.length_pos_of_ne_nil transfer.named
    rw [amountDigits, digits]
    omega
  have sum := List.card_nsmul_le_sum _ 72 each
  rw [List.length_map, Nat.nsmul_eq_mul] at sum
  rw [transferLength]
  omega

end Bounds

/-! ### The transaction of a call -/

/-- The transaction `utxo_transfer` computes an id for. -/
def transferTransaction (set : UTXOSet) (sender recipient : List Char) (amount : Int32) :
    Transaction :=
  let needed := amount + txFee
  let selection := selectInputs sender needed set.entries {}
  { inputs := selection.inputs
    outputs := transferOutputs sender recipient amount selection.selectedTotal needed
    fee := txFee }

/-- Without an id a funded transfer fails. -/
theorem utxoTransfer_of_no_id {env : Env} {set : UTXOSet} {sender recipient : List Char}
    {amount : Int32}
    (none : computeTransactionId env (transferTransaction set sender recipient amount) = .none) :
    (utxoTransfer env set sender recipient amount).ok = false ∧
      (utxoTransfer env set sender recipient amount).state = set := by
  rw [transferTransaction] at none
  simp only [utxoTransfer]
  split
  · exact ⟨rfl, rfl⟩
  · rw [none]
    exact ⟨rfl, rfl⟩

/-- What the loop has gathered: no more inputs than fit, each with a whole id and an amount. -/
structure SelectedBy (sender : List Char) (selection : Selection) : Prop where
  few : selection.inputs.length ≤ maxTxInputs
  worthless : selection.inputs = [] → selection.selectedTotal = 0
  input : ∀ input ∈ selection.inputs, input.utxoRef.text.length = 64 ∧
    input.owner = .strncpy sender ∧ 0 < input.amount

theorem selectedBy_empty (sender : List Char) : SelectedBy sender {} :=
  ⟨Nat.zero_le _, fun _ => rfl, by simp⟩

theorem SelectedBy.add {sender : List Char} {selection : Selection} {entry : UTXO}
    (selected : SelectedBy sender selection) (room : selection.inputs.length < maxTxInputs)
    (valuable : entry.txId.text.length = 64 ∧ 0 < entry.amount) :
    SelectedBy sender (selection.add sender entry) := by
  obtain ⟨long, positive⟩ := valuable
  constructor
  case few =>
    rw [Selection.add, List.length_append, List.length_singleton]
    exact room
  case worthless => simp [Selection.add]
  case input =>
    rw [Selection.add, List.forall_mem_append, List.forall_mem_singleton]
    exact ⟨selected.input, length_strncpy_entryRef long, rfl, positive⟩

/-- The change of a transfer is positive, whatever the selection adds up to. -/
theorem sub_pos_of_lt {needed total : Int32} (positive : 0 < needed) (more : needed < total) :
    0 < total - needed := by
  rw [Int32.lt_iff_toInt_lt] at positive more ⊢
  have high := total.toInt_lt
  rw [Int32.toInt_zero] at positive ⊢
  rw [toInt_sub_of_fits]
  · omega
  · rw [subOverflows_eq_false_iff, InInt]
    omega

/-- A funded transfer between ids that fit their fields, from entries that carry an id and an
amount, is one of the transactions above. -/
theorem isTransfer_transferTransaction {set : UTXOSet} {sender recipient : List Char}
    {amount : Int32} (senderId : sender ≠ [] ∧ sender.length < studentIdLen)
    (recipientId : recipient ≠ [] ∧ recipient.length < studentIdLen) (positive : 0 < amount)
    (fits : addOverflows amount txFee = false)
    (entries : ∀ entry ∈ set.entries, entry.spent = false → entry.owner.text = sender →
      entry.txId.text.length = 64 ∧ 0 < entry.amount)
    (funded : amount + txFee ≤
      (selectInputs sender (amount + txFee) set.entries {}).selectedTotal) :
    IsTransfer (.strncpy sender) (transferTransaction set sender recipient amount) := by
  have needed : 0 < amount + txFee := by
    have value : (0 : Int) < amount.toInt := Int32.lt_iff_toInt_lt.mp positive
    have one : (txFee : Int32).toInt = 1 := rfl
    rw [Int32.lt_iff_toInt_lt, toInt_add_of_fits fits, one, Int32.toInt_zero]
    omega
  -- what the loop keeps of the selection: few inputs, each unspent, named and worth something
  have gathered : SelectedBy sender (selectInputs sender (amount + txFee) set.entries {}) := by
    apply selectInputs_keeps (amount + txFee) (selectedBy_empty sender)
    intro selection entry member unspent owned room selected
    exact selected.add room (entries entry member unspent owned)
  generalize selection : selectInputs sender (amount + txFee) set.entries {} = result at *
  have outputs : (transferTransaction set sender recipient amount).outputs =
      transferOutputs sender recipient amount result.selectedTotal (amount + txFee) := by
    rw [transferTransaction, selection]
  have inputs : (transferTransaction set sender recipient amount).inputs = result.inputs := by
    rw [transferTransaction, selection]
  constructor
  case isReward => rfl
  case fee => rfl
  case named =>
    rw [CStr.text_strncpy senderId.2]
    exact senderId.1
  case inputs =>
    rw [inputs]
    refine ⟨List.length_pos_of_ne_nil ?_, gathered.few⟩
    -- an empty selection is worth nothing, and so covers nothing
    intro empty
    rw [gathered.worthless empty] at funded
    exact absurd (Int32.lt_of_lt_of_le needed funded) Int32.lt_irrefl
  case outputs =>
    rw [outputs, transferOutputs]
    split <;> simp
  case input =>
    rw [inputs]
    exact gathered.input
  case output =>
    rw [outputs, transferOutputs]
    split
    -- the change is positive, as there is more than is needed
    next more =>
      rw [List.forall_mem_cons, List.forall_mem_singleton, CStr.text_strncpy recipientId.2,
        CStr.text_strncpy senderId.2]
      exact ⟨⟨recipientId.1, positive⟩, senderId.1, sub_pos_of_lt needed more⟩
    next =>
      rw [List.forall_mem_singleton, CStr.text_strncpy recipientId.2]
      exact ⟨recipientId.1, positive⟩

/-- A wallet of rewards for attendance, which all have one id. -/
def rewardWallet (count : Nat) (room : count ≤ maxUtxos) : UTXOSet where
  entries := List.replicate count
    ⟨.strncpy (List.replicate 64 'a'), 0, .strncpy "ALU001".toList, 9, false⟩
  fits := by rwa [List.length_replicate]

theorem isTransfer_rewardWallet {count : Nat} (room : count ≤ maxUtxos) {amount : Int32}
    (positive : 0 < amount) (fits : addOverflows amount txFee = false)
    (funded : amount + txFee ≤ (selectInputs "ALU001".toList (amount + txFee)
      (rewardWallet count room).entries {}).selectedTotal) :
    IsTransfer (.strncpy "ALU001".toList)
      (transferTransaction (rewardWallet count room) "ALU001".toList "ALU002".toList amount) := by
  refine isTransfer_transferTransaction ⟨by simp, by decide⟩ ⟨by simp, by decide⟩ positive fits ?_
    funded
  intro entry member _ _
  rw [List.eq_of_mem_replicate member]
  exact ⟨by simp [CStr.strncpy], by decide⟩

/-- Fourteen rewards of 9 coins are enough for 120 coins and the fee, but not for an id, and the
transfer fails. -/
theorem fourteen_inputs_get_no_id :
    let set := rewardWallet 14 (by decide)
    let tx := transferTransaction set "ALU001".toList "ALU002".toList 120
    IsTransfer (.strncpy "ALU001".toList) tx ∧
      ¬((serializeTransaction tx transactionBufferSize).isSome = true ∧
        (computeTransactionId Sample.env tx).isSome = true) ∧
      (utxoTransfer Sample.env set "ALU001".toList "ALU002".toList 120).ok = false := by
  intro set tx
  have transfer : IsTransfer (.strncpy "ALU001".toList) tx :=
    isTransfer_rewardWallet (by decide) (by decide) (by decide) (by decide)
  have many : 14 ≤ tx.inputs.length := by decide
  have long := le_transferLength_of_many transfer many
  have no_text : serializeTransaction tx transactionBufferSize = none := by
    rw [serializeTransaction_eq, length_transactionText_of_isTransfer transfer,
      if_neg (Nat.not_lt.mpr long)]
  refine ⟨transfer, by simp [no_text], (utxoTransfer_of_no_id ?_).1⟩
  change computeTransactionId Sample.env tx = none
  rw [computeTransactionId, no_text, Option.map_none]

/-- With three rewards a transfer of 20 coins has an id. -/
theorem transfer_id_exists_iff_three :
    let tx := transferTransaction (rewardWallet 3 (by decide)) "ALU001".toList "ALU002".toList 20
    (serializeTransaction tx transactionBufferSize).isSome = true ∧
      (computeTransactionId Sample.env tx).isSome = true := by
  intro tx
  have transfer : IsTransfer (.strncpy "ALU001".toList) tx :=
    isTransfer_rewardWallet (by decide) (by decide) (by decide) (by decide)
  exact (transfer_id_exists_iff transfer Sample.env).mpr
    (transferLength_lt_of_few transfer (by decide))

end Attendance
